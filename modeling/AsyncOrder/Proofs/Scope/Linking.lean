import AsyncOrder.Proofs.Scope.Renumbering
import AsyncOrder.Proofs.Scope.Describing
import AsyncOrder.Dependence.Tracing

/-!
# Links between scopes

As built, scopes have no links, their calls and children go together in order, and every child has
a terminator, which is no call (`Unstitched`).  Stitching pairs calls and children (`Pairs`):

    s.link? v = some (.child i)     ↔  v is call number i of s
    u.link? e = some (.parent v)       for the terminator e of child number i

The maps of the reduction put calls, terminators and links where they were, in every scope by the
map of that scope, so the pairs stay the same:

    t.Unstitched → t.stitch.scopes.Paired                                    (Unstitched.paired)
    t.stitch.scopes.reduceWithMaps = .ok (r, maps) → r.Paired ∧ maps.Carries t.stitch.scopes r
                                                                   (Unstitched.paired_reduce)
-/

namespace AsyncOrder

open Program

variable {p q : Program} {c : Context} {t r : ScopeTree} {path : Path} {call : Option Nat}
variable {s u : Scope} {d d' : Draft} {o : OpId} {i v w : Nat}

/-! ## Scopes as they are built -/

/-- No vertex of the tree has a link. -/
def Tree.Unlinked (t : ScopeTree) : Prop :=
  ∀ path s, t.get? path = some s → ∀ x ∈ s.vertices, x.link = none

/-- No vertex of the draft has a link. -/
def Draft.Unlinked (d : Draft) : Prop := Tree.Unlinked (.node d.scope d.children)

theorem Tree.unlinked_node {ts : List ScopeTree} : Tree.Unlinked (.node s ts) ↔
    (∀ x ∈ s.vertices, x.link = none) ∧ ∀ t ∈ ts, t.Unlinked := by
  constructor
  · refine fun h => ⟨h [] s rfl, fun t ht path u hu => ?_⟩
    obtain ⟨i, hi⟩ := List.mem_iff_getElem?.1 ht
    exact h (i :: path) u (by rw [Tree.get?_cons, Tree.getFrom?, hi]; exact hu)
  · rintro ⟨hroot, hbelow⟩ path u hu
    cases path with
    | nil => exact Option.some.inj hu ▸ hroot
    | cons i path =>
      rw [Tree.get?_cons, Tree.getFrom?] at hu
      obtain ⟨t, ht, hu⟩ := Option.bind_eq_some_iff.1 hu
      exact hbelow t (List.mem_of_getElem? ht) path u hu

namespace Draft.Unlinked

theorem addEvent (h : d.Unlinked) (path : Path) (e : Event) : (d.addEvent path e).Unlinked := by
  obtain ⟨hroot, hbelow⟩ := Tree.unlinked_node.1 h
  refine Tree.unlinked_node.2 ⟨fun x hx => ?_, hbelow⟩
  rcases List.mem_append.1 hx with hx | hx
  · exact hroot x hx
  · rw [List.mem_singleton.1 hx]

theorem addOp (h : d.Unlinked) (path : Path) (o : OpId) (events : List Event) :
    (d.addOp path o events).Unlinked := by
  have hall : (events.foldl (Draft.addEvent path) d).Unlinked := by
    induction events generalizing d with
    | nil => exact h
    | cons e events ih => exact ih (h.addEvent path e)
  obtain ⟨hroot, hbelow⟩ := Tree.unlinked_node.1 hall
  rw [Draft.addOp, Draft.Unlinked, scope_addEnds, children_addEnds]
  exact Tree.unlinked_node.2 ⟨hroot, hbelow⟩

theorem addMember (h : d.Unlinked)
    {inner : Level → OpId → Path → Context → Except Failure (ScopeTree × Context)}
    (hinner : ∀ level o path c t c', inner level o path c = .ok (t, c') → t.Unlinked)
    (hstep : p.addMember inner path d o = .ok d') : d'.Unlinked := by
  rw [Program.addMember] at hstep
  split at hstep
  · cases hstep
  · obtain ⟨hroot, hbelow⟩ :=
      Tree.unlinked_node.1 (h.addOp path o (p.events d.scope.kind o))
    split at hstep
    · obtain rfl := Except.ok.inj hstep
      exact Tree.unlinked_node.2 ⟨hroot, hbelow⟩
    · obtain ⟨⟨t, c'⟩, hbuilt, hd'⟩ := exists_of_bind_eq_ok hstep
      obtain rfl := Except.ok.inj hd'
      refine Tree.unlinked_node.2 ⟨hroot, fun u hu => ?_⟩
      rcases List.mem_append.1 hu with hu | hu
      · exact hbelow u hu
      · exact List.mem_singleton.1 hu ▸ hinner _ _ _ _ _ _ hbuilt
    · obtain rfl := Except.ok.inj hstep
      exact Tree.unlinked_node.2 ⟨hroot, hbelow⟩

theorem foldlM (h : d.Unlinked)
    {inner : Level → OpId → Path → Context → Except Failure (ScopeTree × Context)}
    (hinner : ∀ level o path c t c', inner level o path c = .ok (t, c') → t.Unlinked)
    (ops : List OpId) (hrun : ops.foldlM (p.addMember inner path) d = .ok d') : d'.Unlinked := by
  induction ops generalizing d with
  | nil => exact Except.ok.inj hrun ▸ h
  | cons o ops ih =>
    obtain ⟨d₁, hstep, hrest⟩ := exists_of_bind_eq_ok hrun
    exact ih (h.addMember hinner hstep) hrest

theorem bare (kind : ScopeKind) (call : Option OpId) (path : Path) (c : Context) :
    (Draft.bare kind call path c).Unlinked := by
  refine addEvent (Tree.unlinked_node.2 ⟨?_, ?_⟩) path _
  · exact fun x hx => absurd hx List.not_mem_nil
  · exact fun t ht => absurd ht List.not_mem_nil

end Draft.Unlinked

/-- Building sets no link. -/
theorem Program.unlinked_buildScope (depth : Nat) {kind : ScopeKind} {call : Option OpId}
    {blocks : List BlockId} {c c' : Context}
    (h : p.buildScope depth kind call blocks path c = .ok (t, c')) : t.Unlinked := by
  induction depth generalizing kind call blocks path c t c' with
  | zero =>
    obtain ⟨rfl, -⟩ := Prod.mk.inj (Except.ok.inj h)
    exact Tree.unlinked_node.2 ⟨(Tree.unlinked_node.1 (Draft.Unlinked.bare kind call path c)).1,
      fun t ht => absurd ht List.not_mem_nil⟩
  | succ depth ih =>
    obtain ⟨d, hrun, hresult⟩ := exists_of_bind_eq_ok h
    obtain ⟨rfl, -⟩ := Prod.mk.inj (Except.ok.inj hresult)
    exact (Draft.Unlinked.bare kind call path c).foldlM (fun _ _ _ _ _ _ h => ih h) _ hrun

/-- What stitching finds: no links, calls and children that go together, and a terminator in every
child. -/
structure Tree.Unstitched (t : ScopeTree) : Prop where
  start : ∀ path s, t.get? path = some s → Scope.start < s.size
  unlinked : ∀ path s v, t.get? path = some s → s.link? v = none
  terminator : ∀ path s e, t.get? path = some s → s.terminator = some e → e < s.size ∧ e ∉ s.calls
  body : ∀ path s i u, t.get? path = some s → t.get? (path ++ [i]) = some u →
    u.terminator ≠ none ∧ ∃ v o, s.calls[i]? = some v ∧ s.op? v = some o ∧ u.call = some o
  matched : Matched t

/-- An end is no hierarchy call. -/
theorem Drawn.terminator_not_mem_calls {kind : ScopeKind} {call : Option OpId} {ops : List OpId}
    {e : Nat} (h : Drawn p c path kind call ops s) (he : s.terminator = some e) :
    e < s.size ∧ e ∉ s.calls := by
  obtain ⟨pre, z, post, rfl, hkind, rfl⟩ := h.terminator e he
  have hevents : p.events kind z = [⟨.hierarchyTerminator, endLabel kind, some z, some z⟩] := by
    simp [events, hkind]
  have hplace : p.place kind pre ≠ 0 := by
    rw [place]
    omega
  have hlayout := (getElem?_layout_iff hplace).2
    ⟨pre, z, post, 0, rfl, rfl, by rw [hevents]; rfl⟩
  rw [← h.vertices, List.getElem?_map, Option.map_eq_some_iff] at hlayout
  obtain ⟨x, hx, hevent⟩ := hlayout
  refine ⟨(List.getElem?_eq_some_iff.1 hx).1, fun hcall => ?_⟩
  have hkind' : x.key.kind = .hierarchyTerminator := congrArg Event.kind hevent
  rw [Scope.mem_calls, Scope.vertexKind?, hx, Option.map_some, hkind'] at hcall
  cases hcall

/-- Every call that is a member of a scope has an end among its own members. -/
def Program.CallsEnd (p : Program) : Prop :=
  ∀ blocks, ∀ o ∈ p.members blocks, (p.kind o).isHierarchy = true →
    ∃ y ∈ p.members (p.body? o).toList, p.kind y = .finish

theorem Program.WellFormed.callsEnd (hp : p.WellFormed) : p.CallsEnd := fun blocks o ho hcall =>
  let ⟨y, _, hy⟩ := (IsScope.body (hp.nests.lt blocks o ho) hcall).exists_finish hp
  ⟨y, hy⟩

theorem Program.Nests.unstitched (hp : p.Nests) (hends : p.CallsEnd)
    (hbuild : p.scopeTree = .ok (t, c)) : t.Unstitched := by
  have ht := hp.laid hbuild
  obtain ⟨-, -, hneat⟩ := hp.left hbuild
  have hunlinked := unlinked_buildScope _ hbuild
  constructor
  · intro path s hs
    obtain ⟨call, blocks, -, hdrawn⟩ := ht.drawn_at hp hs
    rw [hdrawn.size, place, Scope.start]
    omega
  · intro path s v hs
    rw [Scope.link?]
    cases hx : s.vertices[v]? with
    | none => rfl
    | some x => exact hunlinked path s hs x (List.mem_of_getElem? hx)
  · intro path s e hs he
    obtain ⟨call, blocks, -, hdrawn⟩ := ht.drawn_at hp hs
    exact hdrawn.terminator_not_mem_calls he
  · intro path s i u hs hu
    obtain ⟨call, blocks, -, hdrawn⟩ := ht.drawn_at hp hs
    have hchild := ht.call_children_at hp hs i
    rw [hu, Option.map_some] at hchild
    obtain ⟨v, hv, hop⟩ := Option.map_eq_some_iff.1 hchild.symm
    -- the operation behind a call is a hierarchy call
    have hcalls : (s.calls.map s.op?)[i]? = some (s.op? v) := by
      rw [List.getElem?_map, hv, Option.map_some]
    rw [hdrawn.map_op?_calls, List.getElem?_map] at hcalls
    obtain ⟨o, ho, hsome⟩ := Option.map_eq_some_iff.1 hcalls
    have hcall : u.call = some o := by rw [← hop, ← hsome]
    obtain ⟨hmem, hlevel⟩ := List.mem_filter.1 (List.mem_of_getElem? ho)
    obtain ⟨y, hy, hfinish⟩ := hends blocks o hmem hlevel
    refine ⟨(hneat _ u hu).ended y ?_ hfinish, v, o, hv, hsome.symm, hcall⟩
    rw [hcall]
    exact hy
  · refine matched_iff.2 fun path s hs i => ?_
    have hchild := congrArg Option.isSome (ht.call_children_at hp hs i)
    rw [Option.isSome_map, Option.isSome_map] at hchild
    rw [hchild, isSome_getElem?]

theorem Program.WellFormed.unstitched (hp : p.WellFormed) (hbuild : p.scopeTree = .ok (t, c)) :
    t.Unstitched :=
  hp.nests.unstitched hp.callsEnd hbuild

/-- Edges have no influence on stitching. -/
theorem Tree.Unstitched.of_plain (ht : t.Unstitched) (h : r.SamePlain t) : r.Unstitched := by
  constructor
  · intro path s hs
    obtain ⟨s', hs', hplain⟩ := h.exists hs
    exact Scope.size_eq_of_plain hplain ▸ ht.start path s' hs'
  · intro path s v hs
    obtain ⟨s', hs', hplain⟩ := h.exists hs
    exact Scope.link?_eq_of_plain hplain ▸ ht.unlinked path s' v hs'
  · intro path s e hs he
    obtain ⟨s', hs', hplain⟩ := h.exists hs
    rw [← Scope.size_eq_of_plain hplain, ← Scope.calls_eq_of_plain hplain]
    exact ht.terminator path s' e hs' ((Scope.terminator_eq_of_plain hplain).trans he)
  · intro path s i u hs hu
    obtain ⟨s', hs', hplain⟩ := h.exists hs
    obtain ⟨u', hu', hplain'⟩ := h.exists hu
    rw [← Scope.terminator_eq_of_plain hplain', ← Scope.call_eq_of_plain hplain',
      ← Scope.calls_eq_of_plain hplain, ← Scope.op?_eq_of_plain hplain]
    exact ht.body path s' i u' hs' hu'
  · refine matched_iff.2 fun path s hs i => ?_
    obtain ⟨s', hs', hplain⟩ := h.exists hs
    rw [h.isSome, ← Scope.calls_eq_of_plain hplain]
    exact matched_iff.1 ht.matched path s' hs' i

/-- Resolving tokens, of whichever program, makes edges only. -/
theorem Tree.Unstitched.resolve (ht : t.Unstitched) (q : Program) (c : Context) :
    (q.resolve c t).tree.Unstitched := by
  refine ht.of_plain fun path => ?_
  rw [Program.resolve, Tree.get?_mapWithPath, Option.map_map]
  exact Option.map_congr fun s _ => plain_resolveScope

/-! ## Pairs -/

/-- The links of `s` pair its hierarchy calls with its children, which are found by their numbers,
and the terminators of these are linked back. -/
structure Scope.Pairs (s : Scope) (child? : Nat → Option Scope) : Prop where
  child : ∀ i u, child? i = some u → ∃ v o e, (∀ w, s.link? w = some (.child i) ↔ w = v) ∧
    s.vertexKind? v = some .hierarchyCall ∧ s.op? v = some o ∧ u.call = some o ∧
    u.terminator = some e ∧ u.link? e = some (.parent v)
  call : ∀ v, s.vertexKind? v = some .hierarchyCall →
    ∃ i, (child? i).isSome = true ∧ s.link? v = some (.child i)
  link : ∀ v i, s.link? v = some (.child i) → (child? i).isSome = true

/-- In every scope of the tree the links pair calls and children. -/
def Tree.Paired (t : ScopeTree) : Prop :=
  ∀ path s, t.get? path = some s → s.Pairs fun i => t.get? (path ++ [i])

theorem Tree.Paired.of_plain (ht : t.Paired) (h : r.SamePlain t) : r.Paired := by
  intro path s hs
  obtain ⟨s', hs', hplain⟩ := h.exists hs
  obtain ⟨child, call, link⟩ := ht path s' hs'
  rw [Scope.link?_eq_of_plain hplain] at child call link
  rw [Scope.vertexKind?_eq_of_plain hplain] at child call
  rw [Scope.op?_eq_of_plain hplain] at child
  refine ⟨fun i u hu => ?_, fun v hv => ?_, fun v i hi => (h.isSome _).trans (link v i hi)⟩
  · obtain ⟨u', hu', hplain'⟩ := h.exists hu
    rw [← Scope.call_eq_of_plain hplain', ← Scope.terminator_eq_of_plain hplain',
      ← Scope.link?_eq_of_plain hplain']
    exact child i u' hu'
  · obtain ⟨i, hi, hlinked⟩ := call v hv
    exact ⟨i, (h.isSome _).trans hi, hlinked⟩

/-! ## Stitching -/

namespace Scope

theorem calls_stitched : (s.stitched call).calls = s.calls := by
  rw [← calls_unlinked, unlinked_stitched, calls_unlinked]
  rfl

theorem call_stitched : (s.stitched call).call = s.call :=
  show (s.stitched call).unlinked.call = s.close.unlinked.call by rw [unlinked_stitched]

theorem op?_stitched (v : Nat) : (s.stitched call).op? v = s.op? v := by
  have hops : (s.stitched call).vertices.map Vertex.op = s.vertices.map Vertex.op :=
    map_vertices_stitched Vertex.op fun _ => rfl
  have hmap := congrArg (fun l : List (Option OpId) => l[v]?.bind id) hops
  simpa [op?, List.getElem?_map, Option.bind_map, Function.comp_def] using hmap

/-- Where there was no link, just the calls are linked to children. -/
theorem link?_stitched_child_iff (hlinks : ∀ v, s.link? v = none) :
    (s.stitched call).link? v = some (.child i) ↔ s.calls[i]? = some v := by
  refine ⟨fun h => ?_, link?_stitched_of_call⟩
  by_cases hcall : v ∈ s.calls
  · obtain ⟨j, hj⟩ := List.mem_iff_getElem?.1 hcall
    rw [link?_stitched_of_call hj] at h
    exact Link.child.inj (Option.some.inj h) ▸ hj
  · rw [link?_stitched_of_not_call hcall] at h
    cases call with
    | none =>
      have hsame : s.linkTerminator none = s := by
        cases hterm : s.terminator <;> simp [linkTerminator, hterm]
      rw [hsame, hlinks] at h
      cases h
    | some w =>
      rw [link?_linkTerminator, hlinks] at h
      split at h <;> cases h

end Scope

section

variable (ht : t.Unstitched)
include ht

/-- Stitching pairs calls and children. -/
theorem Tree.Unstitched.paired : t.stitch.scopes.Paired := by
  obtain ⟨-, hget⟩ := stitchFrom_of_matched [] none ht.matched
  intro path s hs
  obtain ⟨s', hs', rfl⟩ := Option.map_eq_some_iff.1 ((hget path).symm.trans hs)
  have hlinks := fun v => ht.unlinked path s' v hs'
  have hchild : ∀ i, (t.stitch.scopes.get? (path ++ [i])).isSome = true ↔ i < s'.calls.length := by
    intro i
    rw [Tree.stitch, hget, stitchedAt, Option.isSome_map]
    exact matched_iff.1 ht.matched path s' hs' i
  constructor
  · intro i u hu
    obtain ⟨u', v, hu', hv, rfl⟩ := ht.matched.stitched_child hs' hu
    obtain ⟨hend, v', o, hv', hop, hcall⟩ := ht.body path s' i u' hs' hu'
    obtain rfl := Option.some.inj (hv.symm.trans hv')
    obtain ⟨e, he⟩ := Option.ne_none_iff_exists'.1 hend
    obtain ⟨hlt, hother⟩ := ht.terminator _ u' e hu' he
    refine ⟨v, o, e, fun w => ?_, ?_, (Scope.op?_stitched v).trans hop, ?_, ?_, ?_⟩
    · rw [Scope.link?_stitched_child_iff hlinks, hv, Option.some.injEq, eq_comm]
    · rw [← Scope.mem_calls, Scope.calls_stitched]
      exact List.mem_of_getElem? hv
    · rw [Scope.call_stitched, hcall]
    · rw [Scope.terminator_stitched, he]
    · rw [Scope.link?_stitched_of_not_call hother, Scope.link?_linkTerminator, if_pos ⟨he, hlt⟩]
  · intro v hv
    rw [← Scope.mem_calls, Scope.calls_stitched] at hv
    obtain ⟨i, hi⟩ := List.mem_iff_getElem?.1 hv
    exact ⟨i, (hchild i).2 (List.getElem?_eq_some_iff.1 hi).1, Scope.link?_stitched_of_call hi⟩
  · intro v i hv
    rw [Scope.link?_stitched_child_iff hlinks] at hv
    exact (hchild i).2 (List.getElem?_eq_some_iff.1 hv).1

end

/-! ## Reducing -/

/-- The map pairs the vertices of `s` with those of `r`: start with start, terminator with
terminator, and each with one that is the same. -/
structure VertexMap.Carries (m : VertexMap) (s r : Scope) : Prop where
  inverse : ∀ v w, m.toNew? v = some w ↔ m.toOld? w = some v
  old : ∀ v, (m.toNew? v).isSome = true ↔ v < s.size
  new : ∀ w, (m.toOld? w).isSome = true ↔ w < r.size
  start : m.toNew? Scope.start = some Scope.start
  terminator : s.terminator.map m.toNew? = r.terminator.map some
  same : ∀ v w, m.toNew? v = some w → r.vertices[w]? = s.vertices[v]?

/-- There is a map for every scope of `t`, in its place, which carries it to that of `r`. -/
def Tree.Carries (maps : Tree VertexMap) (t r : ScopeTree) : Prop :=
  ∀ path, (∀ s, t.get? path = some s → ∃ m s', maps.get? path = some m ∧
      r.get? path = some s' ∧ m.Carries s s') ∧
    (t.get? path = none → maps.get? path = none ∧ r.get? path = none)

theorem Scope.carries_vertexMap {s' : Scope} (hplain : s'.plain = s.plain) (hstart : start < s.size)
    (hend : ∀ e, s.terminator = some e → e < s.size) : s.vertexMap.Carries s s' where
  inverse v w := by
    rw [toNew?_vertexMap, toOld?_vertexMap]
    constructor
    all_goals
      intro h
      split at h
      · next hlt =>
        obtain rfl := Option.some.inj h
        exact if_pos hlt
      · cases h
  old v := by
    rw [toNew?_vertexMap]
    split <;> simp_all
  new w := by
    rw [toOld?_vertexMap, size_eq_of_plain hplain]
    split <;> simp_all
  start := by rw [toNew?_vertexMap, if_pos hstart]
  terminator := by
    rw [terminator_eq_of_plain hplain]
    refine Option.map_congr fun e he => ?_
    rw [toNew?_vertexMap, if_pos (hend e he)]
  same v w h := by
    rw [toNew?_vertexMap] at h
    split at h
    · obtain rfl := Option.some.inj h
      rw [vertices_eq_of_plain hplain]
    · cases h

/-- Reducing keeps the pairs and tells truly where vertices have gone. -/
theorem Tree.Unstitched.paired_reduce {maps : Tree VertexMap} (ht : t.Unstitched)
    (h : t.stitch.scopes.reduceWithMaps = .ok (r, maps)) :
    r.Paired ∧ maps.Carries t.stitch.scopes r := by
  have hanchored := ht.matched.anchored_stitch fun path s e hs he =>
    (ht.terminator path s e hs he).1
  obtain ⟨rfl, hplain⟩ := hanchored.samePlain_reduceWithMaps h
  refine ⟨ht.paired.of_plain hplain, fun path => ⟨fun s hs => ?_, fun hnone => ?_⟩⟩
  · obtain ⟨s', hs', hsame⟩ := Option.map_eq_some_iff.1 ((hplain path).trans (congrArg _ hs))
    refine ⟨s.vertexMap, s', ?_, hs', Scope.carries_vertexMap hsame ?_ ?_⟩
    · rw [vertexMaps, map, get?_mapWithPath, hs]
      rfl
    · obtain ⟨-, hget⟩ := stitchFrom_of_matched [] none ht.matched
      obtain ⟨s₀, hs₀, rfl⟩ := Option.map_eq_some_iff.1 ((hget path).symm.trans hs)
      rw [Scope.size_stitched]
      exact ht.start path s₀ hs₀
    · exact fun e he => hanchored.terminator path s e hs he
  · constructor
    · rw [vertexMaps, map, get?_mapWithPath, hnone]
      rfl
    · have := hplain path
      rw [hnone, Option.map_none, Option.map_eq_none_iff] at this
      exact this

/-! ## Programs that are read -/

/-- The tokens of any program may be resolved in the scopes, with memory tracing or without: after
stitching links pair calls and children throughout the tree, and so they do after reducing it,
where the maps tell which vertex has become which.  Without tracing reducing does not fail. -/
theorem links_pair_scopes {source : String} (hsource : readProgram source = .ok p)
    (hbuild : p.scopeTree = .ok (t, c)) (q : Program) :
    let stitched := (q.resolve c t).tree.stitch
    stitched.failure = none ∧ stitched.scopes.Paired ∧
      (∀ r maps, stitched.scopes.reduceWithMaps = .ok (r, maps) →
        r.Paired ∧ maps.Carries stitched.scopes r) ∧
      (q = p → ∃ r maps, stitched.scopes.reduceWithMaps = .ok (r, maps)) := by
  have hp := wellFormed_of_readProgram hsource
  have ht := (hp.unstitched hbuild).resolve q c
  refine ⟨(stitchFrom_of_matched [] none ht.matched).1, ht.paired, fun r maps => ht.paired_reduce,
    ?_⟩
  rintro rfl
  have hregular := (laid_of_scopeTree hp hbuild).regular_resolve hp
  obtain ⟨-, r, hreduce, -⟩ := hregular.reduce_stitch
  exact ⟨r, _, hregular.reduceWithMaps_eq hreduce⟩

/-- Two calls, in one of which there is another. -/
def callsInCalls : String := "func @f() \x7b
  %a = launch \x7b
    %b = join
    %s = segment [%b] \x7b
      end
    \x7d
    end
  \x7d
  %d = launch [%a] \x7b
    end
  \x7d
\x7d
"

theorem links_pair_scopes_callsInCalls : ∃ p t c r maps, readProgram callsInCalls = .ok p ∧
    p.scopeTree = .ok (t, c) ∧
    ((p.traceAll none).1.resolve c t).tree.stitch.scopes.reduceWithMaps = .ok (r, maps) ∧
    r.toList.map (fun s => s.indices.map s.link?) =
      [[none, some (.child 0), some (.child 1)],
        [none, none, some (.child 0), some (.parent 1)], [none, some (.parent 2)],
        [none, some (.parent 2)]] ∧
    r.Paired ∧ maps.Carries ((p.traceAll none).1.resolve c t).tree.stitch.scopes r := by
  obtain ⟨p, t, c, hsource, hbuild, htest⟩ := passes_iff.1
    (show passes callsInCalls (fun p t c =>
      match ((p.traceAll none).1.resolve c t).tree.stitch.scopes.reduceWithMaps with
      | .ok (r, _) => r.toList.map (fun s => s.indices.map s.link?) =
          [[none, some (.child 0), some (.child 1)],
            [none, none, some (.child 0), some (.parent 1)], [none, some (.parent 2)],
            [none, some (.parent 2)]]
      | .error _ => false) = true by decide +kernel)
  split at htest
  · next r maps hreduce =>
    obtain ⟨-, -, hreduced, -⟩ := links_pair_scopes hsource hbuild (p.traceAll none).1
    obtain ⟨hpaired, hcarries⟩ := hreduced r maps hreduce
    exact ⟨p, t, c, r, maps, hsource, hbuild, hreduce, of_decide_eq_true htest, hpaired, hcarries⟩
  · cases htest

end AsyncOrder
