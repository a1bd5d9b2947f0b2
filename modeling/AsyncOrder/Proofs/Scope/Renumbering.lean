import AsyncOrder.Proofs.Scope.Enclosing

/-!
# Vertices in their places

The vertices of a scope are entered anew in the order they are in, so every vertex gets the place
it had:

    s.vertexMap.toNew? v = if v < s.size then some v else none

What is told by the maps stays as it is then, provided that it is about vertices of the scope.
Edges are; a terminator that is no vertex is lost, and so may be its link to the scope above
(`Scope.Kept`, `Tree.get?_renumberFrom`).

In a stitched tree the terminator of a child is linked to a call of the scope above.  So the maps
have no influence on what reducing a regular tree comes to:

    t.stitch.scopes.reduce = .ok r → t.stitch.scopes.reduceWithMaps = .ok (r, maps)
-/

namespace AsyncOrder

variable {s u : Scope} {t r : ScopeTree} {ts : List ScopeTree} {path : Path} {call : Option Nat}
variable {i v w n : Nat} {link : Link} {m : VertexMap}

/-! ## Vertex maps -/

namespace VertexMap

/-- The map of `n` vertices that stay in their places. -/
def stay (n : Nat) : VertexMap :=
  ⟨(List.range n).reverse.map fun v => (v, v), (List.range n).reverse.map fun v => (v, v)⟩

theorem size_stay (n : Nat) : (stay n).size = n := by
  simp [stay, size]

theorem stay_insert (n : Nat) : (stay n).insert n (stay n).size = stay (n + 1) := by
  have hnew : ((List.range n).reverse.map fun v => (v, v)).filter (fun e => e.1 ≠ n) =
      (List.range n).reverse.map fun v => (v, v) := by
    refine List.filter_eq_self.2 fun e he => ?_
    obtain ⟨v, hv, rfl⟩ := List.mem_map.1 he
    exact decide_eq_true (Nat.ne_of_lt (List.mem_range.1 (List.mem_reverse.1 hv)))
  rw [size_stay, insert, stay, hnew, stay, List.range_succ, List.reverse_append]
  rfl

theorem find?_stay (n v : Nat) :
    (((List.range n).reverse.map fun v => (v, v)).find? (·.1 = v)).map (·.2) =
      if v < n then some v else none := by
  induction n with
  | zero => simp
  | succ n ih =>
    rw [List.range_succ, List.reverse_append, List.reverse_singleton, List.singleton_append,
      List.map_cons, List.find?_cons]
    by_cases hv : n = v
    · simp [hv]
    · have hlt : v < n + 1 ↔ v < n := by omega
      simp only [hv, decide_false, ih, hlt]

theorem toNew?_stay (n v : Nat) : (stay n).toNew? v = if v < n then some v else none :=
  find?_stay n v

theorem toOld?_stay (n v : Nat) : (stay n).toOld? v = if v < n then some v else none :=
  find?_stay n v

end VertexMap

namespace Scope

theorem vertexMap_eq (s : Scope) : s.vertexMap = .stay s.size := by
  rw [vertexMap, indices]
  induction s.size with
  | zero => rfl
  | succ n ih => rw [List.range_succ, List.foldl_append, ih]; exact VertexMap.stay_insert n

theorem toNew?_vertexMap (s : Scope) (v : Nat) :
    s.vertexMap.toNew? v = if v < s.size then some v else none := by
  rw [vertexMap_eq, VertexMap.toNew?_stay]

theorem toOld?_vertexMap (s : Scope) (v : Nat) :
    s.vertexMap.toOld? v = if v < s.size then some v else none := by
  rw [vertexMap_eq, VertexMap.toOld?_stay]

/-! ## Scopes that differ in edges -/

section

variable {s' : Scope} (h : s'.plain = s.plain)
include h

theorem vertices_eq_of_plain : s'.vertices = s.vertices :=
  show s'.plain.vertices = s.plain.vertices by rw [h]

theorem size_eq_of_plain : s'.size = s.size := by rw [size, size, vertices_eq_of_plain h]

theorem terminator_eq_of_plain : s'.terminator = s.terminator :=
  show s'.plain.terminator = s.plain.terminator by rw [h]

theorem call_eq_of_plain : s'.call = s.call := show s'.plain.call = s.plain.call by rw [h]

theorem link?_eq_of_plain : s'.link? = s.link? :=
  funext fun v => by rw [link?, link?, vertices_eq_of_plain h]

theorem op?_eq_of_plain : s'.op? = s.op? :=
  funext fun v => by rw [op?, op?, vertices_eq_of_plain h]

theorem vertexKind?_eq_of_plain : s'.vertexKind? = s.vertexKind? :=
  funext fun v => by rw [vertexKind?, vertexKind?, vertices_eq_of_plain h]

theorem calls_eq_of_plain : s'.calls = s.calls := by
  rw [calls, calls, indices, indices, size_eq_of_plain h, vertexKind?_eq_of_plain h]

end

/-! ## One scope -/

theorem plain_renumber (hend : ∀ e, s.terminator = some e → e < s.size) :
    (s.renumber s.vertexMap).plain = s.plain := by
  have hterm : s.terminator.bind s.vertexMap.toNew? = s.terminator := by
    cases h : s.terminator with
    | none => rfl
    | some e => rw [Option.bind_some, toNew?_vertexMap, if_pos (hend e h)]
  rw [plain, plain, renumber, hterm]

theorem edges_renumber (hbounded : s.graph.Bounded) :
    (s.renumber s.vertexMap).edges = s.edges := by
  rw [renumber]
  refine (List.filterMap_congr fun e he => ?_).trans List.filterMap_some
  obtain ⟨u, v⟩ := e
  obtain ⟨hu, hv⟩ := hbounded u v he
  have hu : u < s.size := hu
  have hv : v < s.size := hv
  simp [toNew?_vertexMap, hu, hv]

/-- A link that stays as it is under the map. -/
theorem relink_eq (h : ∀ e v, s.terminator = some e → s.link? e = some (.parent v) →
    m.toNew? v = some v) : s.relink m = s := by
  rw [relink]
  split
  · next e he =>
    have hlink : ∀ x, s.vertices[e]? = some x → m.link? x.link = x.link := by
      intro x hx
      cases hl : x.link with
      | none => rfl
      | some l =>
        cases l with
        | child i => rfl
        | parent v =>
          have hv := h e v he (by rw [Scope.link?, hx, Option.bind_some, hl])
          rw [VertexMap.link?, hv, Option.map_some]
    have hsame : s.vertices.modify e (fun x => { x with link := m.link? x.link }) = s.vertices := by
      refine List.ext_getElem? fun i => ?_
      rw [List.getElem?_modify]
      cases hx : s.vertices[i]? with
      | none => rfl
      | some x =>
        by_cases hi : e = i
        · simp [hi, hlink x (hi ▸ hx)]
        · simp [hi]
    rw [hsame]
  · rfl

/-- What the scope becomes below a scope with this map. -/
def renumberBelow (s : Scope) (above? : Option VertexMap) : Scope :=
  (above?.map (s.renumber s.vertexMap).relink).getD (s.renumber s.vertexMap)

/-- `s'` has all of `s` but the edges, a terminator that is no vertex, and what its terminator is
linked to. -/
structure Kept (s s' : Scope) : Prop where
  kind : s'.kind = s.kind
  call : s'.call = s.call
  vertices : s'.unlinked.vertices = s.unlinked.vertices
  link : ∀ v, s.terminator ≠ some v → s'.link? v = s.link? v
  terminator : s'.terminator = s.terminator.filter (· < s.size)

theorem Kept.size_eq {s' : Scope} (h : s.Kept s') : s'.size = s.size := by
  have hlength := congrArg List.length h.vertices
  rwa [← size, ← size, size_unlinked, size_unlinked] at hlength

theorem kept_renumber (s : Scope) : s.Kept (s.renumber s.vertexMap) where
  kind := rfl
  call := rfl
  vertices := rfl
  link _ _ := rfl
  terminator := by
    show s.terminator.bind s.vertexMap.toNew? = _
    cases s.terminator with
    | none => rfl
    | some e => rw [Option.bind_some, toNew?_vertexMap, Option.filter_some]; simp

theorem edges_relink (s : Scope) (m : VertexMap) : (s.relink m).edges = s.edges := by
  rw [relink]
  split <;> rfl

/-- Only the link of the terminator is told by the map of the scope above. -/
theorem Kept.relink {s' : Scope} (h : s.Kept s') (m : VertexMap) : s.Kept (s'.relink m) := by
  rw [Scope.relink]
  split
  · next e he =>
    refine ⟨h.kind, h.call, ?_, fun v hv => ?_, h.terminator⟩
    · rw [← h.vertices, unlinked, unlinked]
      refine List.ext_getElem? fun i => ?_
      rw [List.getElem?_map, List.getElem?_map, List.getElem?_modify]
      cases s'.vertices[i]? with
      | none => rfl
      | some x =>
        simp only [Option.map_eq_map, Option.map_some]
        split <;> rfl
    · have hne : e ≠ v := by
        rintro rfl
        rw [h.terminator, Option.filter_eq_some_iff] at he
        exact hv he.1
      rw [← h.link v hv, link?, link?, List.getElem?_modify]
      simp [hne]
  · exact h

theorem kept_renumberBelow (s : Scope) (above? : Option VertexMap) :
    s.Kept (s.renumberBelow above?) := by
  cases above? with
  | none => exact s.kept_renumber
  | some m => exact s.kept_renumber.relink m

theorem edges_renumberBelow (hbounded : s.graph.Bounded) (above? : Option VertexMap) :
    (s.renumberBelow above?).edges = s.edges := by
  cases above? with
  | none => exact edges_renumber hbounded
  | some m => exact (edges_relink _ m).trans (edges_renumber hbounded)

end Scope

/-! ## Trees -/

/-- The trees differ in edges only. -/
def Tree.SamePlain (r t : ScopeTree) : Prop :=
  ∀ path, (r.get? path).map Scope.plain = (t.get? path).map Scope.plain

theorem Tree.SamePlain.exists (h : r.SamePlain t) (hs : r.get? path = some s) :
    ∃ s', t.get? path = some s' ∧ s'.plain = s.plain :=
  Option.map_eq_some_iff.1 ((h path).symm.trans (congrArg _ hs))

theorem Tree.SamePlain.isSome (h : r.SamePlain t) (path : Path) :
    (r.get? path).isSome = (t.get? path).isSome := by
  rw [← Option.isSome_map, h, Option.isSome_map]

/-- Terminators are vertices of their scopes, and linked to vertices of the scopes above. -/
structure Tree.Anchored (t : ScopeTree) : Prop where
  terminator : ∀ path s e, t.get? path = some s → s.terminator = some e → e < s.size
  link : ∀ path i s u e v, t.get? path = some s → t.get? (path ++ [i]) = some u →
    u.terminator = some e → u.link? e = some (.parent v) → v < s.size

/-- The map of the scope above the scope at a path; that of the root is `above?`. -/
def Tree.mapAbove? (above? : Option VertexMap) : ScopeTree → Path → Option VertexMap
  | _, [] => above?
  | .node s ts, i :: path => ts[i]?.bind fun t => t.mapAbove? (some s.vertexMap) path

theorem renumberChildren_eq (m : VertexMap) (ts : List ScopeTree) :
    renumberChildren m ts = ts.map (renumberFrom (some m)) := by
  induction ts with
  | nil => rfl
  | cons t ts ih => rw [renumberChildren, ih, List.map_cons]

/-- Each scope is entered anew below the scope above it. -/
theorem Tree.get?_renumberFrom (above? : Option VertexMap) (t : ScopeTree) (path : Path) :
    (renumberFrom above? t).get? path =
      (t.get? path).map fun s => s.renumberBelow (t.mapAbove? above? path) := by
  induction path generalizing t above? with
  | nil =>
    obtain ⟨s, ts⟩ := t
    rw [renumberFrom]
    rfl
  | cons i path ih =>
    obtain ⟨s, ts⟩ := t
    rw [renumberFrom, get?_cons, get?_cons, renumberChildren_eq, getFrom?, getFrom?,
      List.getElem?_map, mapAbove?]
    cases ts[i]? with
    | none => rfl
    | some t => exact ih (some s.vertexMap) t

theorem Tree.exists_of_mapAbove? {above? : Option VertexMap} (h : t.mapAbove? above? path = some m) :
    path = [] ∧ above? = some m ∨
      ∃ above i s, path = above ++ [i] ∧ t.get? above = some s ∧ m = s.vertexMap := by
  induction path generalizing t above? with
  | nil => exact Or.inl ⟨rfl, h⟩
  | cons i path ih =>
    obtain ⟨s, ts⟩ := t
    obtain ⟨t, ht, h⟩ := Option.bind_eq_some_iff.1 h
    right
    rcases ih h with ⟨rfl, hm⟩ | ⟨above, j, s', rfl, hs', rfl⟩
    · exact ⟨[], i, s, rfl, rfl, (Option.some.inj hm).symm⟩
    · refine ⟨i :: above, j, s', rfl, ?_, rfl⟩
      rw [get?_cons, getFrom?, ht]
      exact hs'

/-- In an anchored tree all links stay as they are. -/
theorem Tree.Anchored.get?_renumberFrom (ht : t.Anchored) (path : Path) :
    (renumberFrom none t).get? path = (t.get? path).map fun s => s.renumber s.vertexMap := by
  rw [Tree.get?_renumberFrom]
  refine Option.map_congr fun s hs => ?_
  have hplain := Scope.plain_renumber fun e => ht.terminator path s e hs
  cases habove : t.mapAbove? none path with
  | none => rfl
  | some m =>
    rcases Tree.exists_of_mapAbove? habove with ⟨-, hm⟩ | ⟨above, i, s', rfl, hs', rfl⟩
    · cases hm
    · refine Scope.relink_eq fun e v he hlink => ?_
      have he' := (congrArg Scope.terminator hplain).symm.trans he
      rw [Scope.toNew?_vertexMap, if_pos (ht.link above i s' s e v hs' hs he' hlink)]

/-! ## Links of stitched scopes -/

namespace Scope

theorem link?_setLink : (s.setLink v link).link? w =
    if v = w ∧ w < s.size then some link else s.link? w := by
  rw [link?, setLink, List.getElem?_modify, link?]
  by_cases hlt : w < s.size
  · rw [List.getElem?_eq_getElem hlt]
    by_cases hv : v = w <;> simp [hv, hlt]
  · rw [List.getElem?_eq_none (Nat.le_of_not_lt hlt), if_neg fun h => hlt h.2]
    rfl

theorem mem_calls : v ∈ s.calls ↔ s.vertexKind? v = some .hierarchyCall := by
  rw [calls, List.mem_filter, indices, List.mem_range, decide_eq_true_eq]
  refine and_iff_right_of_imp fun h => ?_
  obtain ⟨x, hx, -⟩ := Option.map_eq_some_iff.1 h
  exact (List.getElem?_eq_some_iff.1 hx).1

theorem lt_of_mem_calls (h : v ∈ s.calls) : v < s.size :=
  List.mem_range.1 (List.mem_filter.1 h).1

theorem nodup_calls : s.calls.Nodup := List.nodup_range.filter _

/-- Each vertex of a list without repetition gets the link entered with it, and no other does. -/
theorem link?_foldl_setLink (l : List (Nat × Nat)) (hl : (l.map (·.1)).Nodup)
    (hlt : ∀ e ∈ l, e.1 < s.size) :
    let s' := l.foldl (fun s e => s.setLink e.1 (.child e.2)) s
    (∀ e ∈ l, s'.link? e.1 = some (.child e.2)) ∧
      ∀ w, (∀ e ∈ l, e.1 ≠ w) → s'.link? w = s.link? w := by
  induction l generalizing s with
  | nil => exact ⟨fun e he => absurd he List.not_mem_nil, fun _ _ => rfl⟩
  | cons e l ih =>
    obtain ⟨hfirst, hrest⟩ := List.nodup_cons.1 hl
    have hsize : (s.setLink e.1 (.child e.2)).size = s.size := by
      rw [← size_unlinked, unlinked_setLink, size_unlinked]
    obtain ⟨hin, hout⟩ := ih (s := s.setLink e.1 (.child e.2)) hrest fun f hf =>
      hsize ▸ hlt f (List.mem_cons_of_mem _ hf)
    have hapart : ∀ f ∈ l, f.1 ≠ e.1 := fun f hf heq =>
      hfirst (List.mem_map.2 ⟨f, hf, heq⟩)
    refine ⟨fun f hf => ?_, fun w hw => ?_⟩
    · rcases List.mem_cons.1 hf with rfl | hf
      · exact (hout f.1 hapart).trans (link?_setLink.trans (if_pos ⟨rfl, hlt f List.mem_cons_self⟩))
      · exact hin f hf
    · have hne := hw e List.mem_cons_self
      exact (hout w fun f hf => hw f (List.mem_cons_of_mem _ hf)).trans
        (link?_setLink.trans (if_neg fun h => hne h.1))

/-- A call is linked to the child of its number. -/
theorem link?_stitched_of_call (hi : s.calls[i]? = some v) :
    (s.stitched call).link? v = some (.child i) := by
  have hcalls : (s.linkTerminator call).close.calls = s.calls := calls_linked
  rw [stitched, linkCalls]
  refine (link?_foldl_setLink _ ?_ fun e he => ?_).1 (v, i) ?_
  · rw [List.zipIdx_map_fst]
    exact nodup_calls
  · exact lt_of_mem_calls (List.fst_mem_of_mem_zipIdx he)
  · rw [hcalls]
    exact List.mem_zipIdx_iff_getElem?.2 hi

theorem link?_stitched_of_not_call (hv : v ∉ s.calls) :
    (s.stitched call).link? v = (s.linkTerminator call).link? v := by
  have hcalls : (s.linkTerminator call).close.calls = s.calls := calls_linked
  rw [stitched, linkCalls]
  refine (link?_foldl_setLink _ ?_ fun e he => ?_).2 v fun e he heq => ?_
  · rw [List.zipIdx_map_fst]
    exact nodup_calls
  · exact lt_of_mem_calls (List.fst_mem_of_mem_zipIdx he)
  · rw [hcalls] at he
    exact hv (heq ▸ List.fst_mem_of_mem_zipIdx he)

theorem link?_linkTerminator (v : Nat) : (s.linkTerminator (some v)).link? w =
    if s.terminator = some w ∧ w < s.size then some (.parent v) else s.link? w := by
  cases he : s.terminator with
  | none => simp [linkTerminator, he]
  | some e => simp [linkTerminator, he, link?_setLink]

/-- A terminator that is linked back is linked to the call of its scope. -/
theorem eq_of_link?_stitched (he : s.terminator = some w)
    (h : (s.stitched (some v)).link? w = some (.parent n)) : n = v := by
  by_cases hcall : w ∈ s.calls
  · obtain ⟨i, hi⟩ := List.mem_iff_getElem?.1 hcall
    rw [link?_stitched_of_call hi] at h
    cases h
  · rw [link?_stitched_of_not_call hcall, link?_linkTerminator] at h
    split at h
    · exact (Link.parent.inj (Option.some.inj h)).symm
    · next hout =>
      have hlt : ¬ w < s.size := fun hlt => hout ⟨he, hlt⟩
      rw [link?, List.getElem?_eq_none (Nat.le_of_not_lt hlt)] at h
      cases h

end Scope

/-! ## Stitched trees -/

/-- The tree at number `i` below a scope is the body of call `i`. -/
theorem callAt_child (hs : t.get? path = some s) (hu : t.get? (path ++ [i]) = some u) :
    callAt call (path ++ [i]) t = s.calls[i]? := by
  induction path generalizing t call with
  | nil =>
    obtain ⟨s', ts⟩ := t
    obtain rfl : s' = s := Option.some.inj hs
    rw [List.nil_append, Tree.get?_cons, Tree.getFrom?] at hu
    obtain ⟨child, hchild, -⟩ := Option.bind_eq_some_iff.1 hu
    rw [List.nil_append, callAt, hchild]
    rfl
  | cons j path ih =>
    obtain ⟨s', ts⟩ := t
    rw [Tree.get?_cons, Tree.getFrom?] at hs
    rw [List.cons_append, Tree.get?_cons, Tree.getFrom?] at hu
    obtain ⟨child, hchild, hs⟩ := Option.bind_eq_some_iff.1 hs
    rw [hchild, Option.bind_some] at hu
    rw [List.cons_append, callAt, hchild]
    exact ih hs hu

/-- What a child of a scope of a stitched tree comes from. -/
theorem Matched.stitched_child (ht : Matched t) (hs : t.get? path = some s)
    (hu : t.stitch.scopes.get? (path ++ [i]) = some u) :
    ∃ u' v, t.get? (path ++ [i]) = some u' ∧ s.calls[i]? = some v ∧ u = u'.stitched (some v) := by
  obtain ⟨-, hget⟩ := stitchFrom_of_matched [] none ht
  obtain ⟨u', hu', rfl⟩ := Option.map_eq_some_iff.1 ((hget _).symm.trans hu)
  have hi := (matched_iff.1 ht path s hs i).1 (by rw [hu']; rfl)
  refine ⟨u', s.calls[i], hu', List.getElem?_eq_getElem hi, ?_⟩
  rw [callAt_child hs hu', List.getElem?_eq_getElem hi]

theorem Scope.terminator_stitched : (s.stitched call).terminator = s.terminator := by
  have h : (s.stitched call).unlinked.terminator = s.close.unlinked.terminator := by
    rw [unlinked_stitched]
  exact h

theorem Scope.size_stitched : (s.stitched call).size = s.size := by
  rw [← size_unlinked, unlinked_stitched, size_unlinked, size_close]

theorem Matched.anchored_stitch (ht : Matched t)
    (hend : ∀ path s e, t.get? path = some s → s.terminator = some e → e < s.size) :
    t.stitch.scopes.Anchored := by
  obtain ⟨-, hget⟩ := stitchFrom_of_matched [] none ht
  constructor
  · intro path s e hs he
    obtain ⟨s', hs', rfl⟩ := Option.map_eq_some_iff.1 ((hget path).symm.trans hs)
    rw [Scope.terminator_stitched] at he
    rw [Scope.size_stitched]
    exact hend path s' e hs' he
  · intro path i s u e v hs hu he hlink
    obtain ⟨s', hs', rfl⟩ := Option.map_eq_some_iff.1 ((hget path).symm.trans hs)
    obtain ⟨u', v', hu', hcall, rfl⟩ := ht.stitched_child hs' hu
    rw [Scope.terminator_stitched] at he
    obtain rfl := Scope.eq_of_link?_stitched he hlink
    rw [Scope.size_stitched]
    exact Scope.lt_of_mem_calls (List.mem_of_getElem? hcall)

/-! ## Reduced trees -/

/-- Reducing changes edges only. -/
theorem Tree.samePlain_reduce (h : t.reduce = .ok r) : r.SamePlain t := by
  intro path
  have hrel := Tree.get?_of_mapWithPathM h path
  generalize t.get? path = a at hrel
  generalize r.get? path = b at hrel
  cases hrel with
  | none => rfl
  | some hs =>
    rw [Scope.reduce] at hs
    split at hs
    · cases hs
    · obtain rfl := Except.ok.inj hs
      rfl

/-- Edges do not matter for what is anchored. -/
theorem Tree.Anchored.of_plain (ht : t.Anchored) (h : r.SamePlain t) : r.Anchored := by
  constructor
  · intro path s e hs he
    obtain ⟨s', hs', hplain⟩ := h.exists hs
    rw [← Scope.size_eq_of_plain hplain]
    exact ht.terminator path s' e hs' ((Scope.terminator_eq_of_plain hplain).trans he)
  · intro path i s u e v hs hu he hlink
    obtain ⟨s', hs', hplain⟩ := h.exists hs
    obtain ⟨u', hu', hplain'⟩ := h.exists hu
    rw [← Scope.size_eq_of_plain hplain]
    rw [← Scope.link?_eq_of_plain hplain'] at hlink
    exact ht.link path i s' u' e v hs' hu' ((Scope.terminator_eq_of_plain hplain').trans he) hlink

/-- Vertices, terminators and links are the same after reducing an anchored tree. -/
theorem Tree.Anchored.samePlain_reduceWithMaps {maps : Tree VertexMap} (ht : t.Anchored)
    (h : t.reduceWithMaps = .ok (r, maps)) : maps = t.vertexMaps ∧ r.SamePlain t := by
  obtain ⟨reduced, hreduce, h⟩ := exists_of_bind_eq_ok h
  obtain ⟨rfl, rfl⟩ := Prod.mk.inj (Except.ok.inj h)
  have hplain := Tree.samePlain_reduce hreduce
  have hanchored := ht.of_plain hplain
  refine ⟨rfl, fun path => ?_⟩
  rw [← hplain, hanchored.get?_renumberFrom, Option.map_map]
  exact Option.map_congr fun s hs => Scope.plain_renumber fun e => hanchored.terminator path s e hs

/-- For regular trees the maps have no influence. -/
theorem Regular.reduceWithMaps_eq (ht : Regular t) (h : t.stitch.scopes.reduce = .ok r) :
    t.stitch.scopes.reduceWithMaps = .ok (r, t.stitch.scopes.vertexMaps) := by
  obtain ⟨-, reduced, hreduce, -, hget⟩ := ht.reduce_stitch
  obtain rfl := Except.ok.inj (hreduce.symm.trans h)
  have hanchored : t.stitch.scopes.Anchored := ht.matched.anchored_stitch fun path s e hs he => by
    have := (ht.ordered path s hs).last e he
    omega
  have hplain := Tree.samePlain_reduce hreduce
  have hsame : renumberFrom none reduced = reduced := by
    refine Tree.ext fun path => ?_
    have hreduced := hanchored.of_plain hplain
    rw [hreduced.get?_renumberFrom]
    refine (Option.map_congr fun s hs => ?_).trans Option.map_id'
    obtain ⟨s', hs', -⟩ := hplain.exists hs
    obtain ⟨hordered, hs''⟩ := hget path s' hs'
    obtain rfl := Option.some.inj (hs''.symm.trans hs)
    have hbounded : s'.reduced.graph.Bounded := Digraph.bounded_reduction hordered.bounded
    have hedges := Scope.edges_renumber hbounded
    have hrest := Scope.plain_renumber fun e => hreduced.terminator path s'.reduced e hs
    have hwhole : ∀ s : Scope, s = { s.plain with edges := s.edges } := fun _ => rfl
    rw [hwhole (s'.reduced.renumber _), hrest, hedges]
    rfl
  rw [Tree.reduceWithMaps, h]
  exact congrArg (fun r => Except.ok (r, t.stitch.scopes.vertexMaps)) hsame

end AsyncOrder
