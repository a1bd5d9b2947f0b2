import AsyncOrder.Proofs.Scope.Nesting
import AsyncOrder.Proofs.Tree

/-!
# What building leaves on record

Building a tree enters the places of its vertices and the ends of their operations in the context,
and nothing else:

    e ∈ c'.places → e ∈ c.places ∨ e is the place of a vertex of t              (Records.places)
    e ∈ c'.ends → e ∈ c.ends ∨ e.1 is the operation of a vertex of t            (Records.ends)

Every number handed out is that of a key on record (`Numbered`).  The edges of a scope ascend, and
a scope of which a member is an end has a terminator (`Neat`).
-/

namespace AsyncOrder

open Program

variable {p : Program} {c c' c'' : Context} {base path : Path} {kind : ScopeKind}
variable {call : Option OpId} {t : ScopeTree} {s s' : Scope} {ts ts' : List ScopeTree}
variable {d d' : Draft} {o : OpId} {pre ops : List OpId} {e : Event} {x : Vertex} {v : Nat}

/-! ## Vertices of a tree -/

/-- Vertex `v` of the scope at `path`. -/
def Tree.vertex? (t : ScopeTree) (path : Path) (v : Nat) : Option Vertex :=
  (t.get? path).bind fun s => s.vertices[v]?

theorem Tree.vertex?_eq_some : t.vertex? path v = some x ↔
    ∃ s, t.get? path = some s ∧ s.vertices[v]? = some x :=
  Option.bind_eq_some_iff

/-- A tree with more vertices at its root and more children has the vertices it had. -/
theorem Tree.vertex?_grow (hs : s.vertices <+: s'.vertices) (hts : ts <+: ts')
    (h : Tree.vertex? (.node s ts) path v = some x) :
    Tree.vertex? (.node s' ts') path v = some x := by
  have hold : ∀ {α : Type} {l l' : List α} {i : Nat} {a : α}, l <+: l' → l[i]? = some a →
      l'[i]? = some a := by
    rintro α l _ i a ⟨rest, rfl⟩ hi
    rw [List.getElem?_append_left (List.getElem?_eq_some_iff.1 hi).1, hi]
  cases path with
  | nil => exact hold hs h
  | cons i path =>
    rw [vertex?, get?_cons, getFrom?, Option.bind_assoc, Option.bind_eq_some_iff] at h ⊢
    obtain ⟨u, hu, h⟩ := h
    exact ⟨u, hold hts hu, h⟩

/-! ## Records -/

/-- From `c` to `c'` nothing has been entered but what is of the tree, which is at `base`. -/
structure Records (base : Path) (c c' : Context) (t : ScopeTree) : Prop where
  places : ∀ e ∈ c'.places, e ∈ c.places ∨
    ∃ path v x, e = (x.key, base ++ path, v) ∧ t.vertex? path v = some x
  ends : ∀ e ∈ c'.ends, e ∈ c.ends ∨
    ∃ path v x, t.vertex? path v = some x ∧ x.op = some e.1

/-- Every number handed out is that of a key on record. -/
structure Context.Numbered (c : Context) : Prop where
  size : c.counters.counts.size = VertexKind.all.length
  recorded : ∀ key : Key, key.seq < c.counters.count key.kind → ∃ e ∈ c.places, e.1 = key

/-- The edges of a scope with the given members ascend, and an end among the members ends it. -/
structure Scope.Neat (p : Program) (ops : List OpId) (s : Scope) : Prop where
  bounded : ∀ e ∈ s.edges, e.1 < s.size
  ascending : s.edges.Pairwise fun e f => e.1 < f.1
  ended : ∀ o ∈ ops, p.kind o = .finish → s.terminator ≠ none

theorem Scope.Neat.nodup_edges {ops : List OpId} (h : s.Neat p ops) : s.edges.Nodup :=
  h.ascending.imp fun {_ _} hlt heq => Nat.ne_of_lt hlt (congrArg Prod.fst heq)

/-- The blocks of the scope that is the body of `call`. -/
def Program.scopeBlocks (p : Program) : Option OpId → List BlockId
  | none => p.funcs.map (·.body)
  | some h => (p.body? h).toList

theorem Program.IsScope.blocks_eq {blocks : List BlockId} (h : p.IsScope call blocks) :
    blocks = p.scopeBlocks call := by
  cases h <;> rfl

/-- Every scope of the tree is neat. -/
def Tree.Neat (p : Program) (t : ScopeTree) : Prop :=
  ∀ path s, t.get? path = some s → s.Neat p (p.members (p.scopeBlocks s.call))

theorem Records.grow (h : Records base c c' (.node s ts)) (hs : s.vertices <+: s'.vertices)
    (hts : ts <+: ts') : Records base c c' (.node s' ts') where
  places e he := (h.places e he).imp_right fun ⟨path, v, x, heq, hx⟩ =>
    ⟨path, v, x, heq, Tree.vertex?_grow hs hts hx⟩
  ends e he := (h.ends e he).imp_right fun ⟨path, v, x, hx, hop⟩ =>
    ⟨path, v, x, Tree.vertex?_grow hs hts hx, hop⟩

theorem Records.refl (base : Path) (c : Context) (t : ScopeTree) : Records base c c t :=
  ⟨fun _ => Or.inl, fun _ => Or.inl⟩

/-- What one more child records. -/
theorem Records.child (h : Records base c c' (.node s ts))
    (hchild : Records (base ++ [ts.length]) c' c'' t) : Records base c c'' (.node s (ts ++ [t])) := by
  have hold := h.grow (List.prefix_refl _) (List.prefix_append ts [t])
  have hnew : ∀ {path v x}, t.vertex? path v = some x →
      Tree.vertex? (.node s (ts ++ [t])) (ts.length :: path) v = some x := by
    intro path v x hx
    rw [Tree.vertex?, Tree.get?_cons, Tree.getFrom?, List.getElem?_concat_length]
    exact hx
  constructor
  · intro e he
    rcases hchild.places e he with he | ⟨path, v, x, rfl, hx⟩
    · exact hold.places e he
    · exact Or.inr ⟨ts.length :: path, v, x, by rw [← List.append_cons], hnew hx⟩
  · intro e he
    rcases hchild.ends e he with he | ⟨path, v, x, hx, hop⟩
    · exact hold.ends e he
    · exact Or.inr ⟨ts.length :: path, v, x, hnew hx, hop⟩

/-! ## One event -/

namespace Draft

theorem records_addEvent (h : Records base c d.context (.node d.scope d.children)) :
    Records base c (d.addEvent base e).context
      (.node (d.addEvent base e).scope (d.addEvent base e).children) := by
  have hprefix : d.scope.vertices <+: (d.addEvent base e).scope.vertices := List.prefix_append _ _
  have hold := h.grow hprefix (List.prefix_refl d.children)
  refine ⟨fun a ha => ?_, hold.ends⟩
  rcases List.mem_cons.1 ha with rfl | ha
  · refine Or.inr ⟨[], d.scope.size, ⟨(d.context.counters.alloc e.kind).1, _, _, _, _⟩, ?_,
      List.getElem?_concat_length⟩
    rw [List.append_nil]
    rfl
  · exact hold.places a ha

theorem numbered_addEvent (h : d.context.Numbered) : (d.addEvent path e).context.Numbered := by
  refine ⟨?_, fun key hkey => ?_⟩
  · simpa only [addEvent, Counters.alloc, Array.size_modify] using h.size
  · have hcount : (d.addEvent path e).context.counters.count key.kind =
        d.context.counters.count key.kind + if key.kind = e.kind then 1 else 0 :=
      Context.count_alloc h.size key.kind
    rw [hcount] at hkey
    by_cases hlt : key.seq < d.context.counters.count key.kind
    · obtain ⟨a, ha, hak⟩ := h.recorded key hlt
      exact ⟨a, List.mem_cons_of_mem _ ha, hak⟩
    · have hkind : key.kind = e.kind := by
        by_contra hne
        rw [if_neg hne] at hkey
        omega
      rw [if_pos hkind] at hkey
      refine ⟨_, List.mem_cons_self, ?_⟩
      have hseq : key.seq = d.context.counters.count e.kind := by
        rw [← hkind]
        omega
      cases key
      simp_all

/-- Events become vertices, and all else about the scope stays. -/
theorem foldl_addEvent (path : Path) (events : List Event) (d : Draft) :
    (events.foldl (addEvent path) d).scope.vertices.map Vertex.event =
        d.scope.vertices.map Vertex.event ++ events ∧
      d.scope.vertices <+: (events.foldl (addEvent path) d).scope.vertices ∧
      (events.foldl (addEvent path) d).scope = { d.scope with
        vertices := (events.foldl (addEvent path) d).scope.vertices } ∧
      (events.foldl (addEvent path) d).children = d.children := by
  induction events generalizing d with
  | nil => exact ⟨(List.append_nil _).symm, List.prefix_refl _, rfl, rfl⟩
  | cons e events ih =>
    obtain ⟨hevents, hprefix, hscope, hchildren⟩ := ih (d.addEvent path e)
    rw [List.foldl_cons]
    refine ⟨?_, (List.prefix_append _ _).trans hprefix, hscope, hchildren⟩
    rw [hevents, addEvent, List.map_append, List.append_assoc]
    rfl

/-- The chain of a member joins vertices that are new. -/
theorem neat_chain (h : s.Neat p pre) {xs : List Vertex} {n : Nat} (hn : n - 1 ≤ xs.length)
    {terminator : Option Nat} (hkept : s.terminator ≠ none → terminator ≠ none)
    (hends : p.kind o = .finish → terminator ≠ none) :
    Scope.Neat p (pre ++ [o]) { s with
      vertices := s.vertices ++ xs
      edges := s.edges ++ (List.range' s.size (n - 1)).map fun v => (v, v + 1)
      terminator } := by
  have hchain : ∀ e ∈ (List.range' s.size (n - 1)).map (fun v => (v, v + 1)),
      s.size ≤ e.1 ∧ e.1 < s.size + (n - 1) := by
    intro e he
    obtain ⟨v, hv, rfl⟩ := List.mem_map.1 he
    exact List.mem_range'_1.1 hv
  refine ⟨fun e he => ?_, ?_, fun z hz hkind => ?_⟩
  · rw [Scope.size, List.length_append, ← Scope.size]
    rcases List.mem_append.1 he with he | he
    · have := h.bounded e he
      omega
    · have := hchain e he
      omega
  · refine List.pairwise_append.2 ⟨h.ascending, ?_, fun e he f hf => ?_⟩
    · exact List.pairwise_map.2 List.pairwise_lt_range'
    · exact Nat.lt_of_lt_of_le (h.bounded e he) (hchain f hf).1
  · rcases List.mem_append.1 hz with hz | hz
    · exact hkept (h.ended z hz hkind)
    · exact hends (List.mem_singleton.1 hz ▸ hkind)

/-! ## One member -/

@[simp]
theorem scope_addEnds (o : OpId) (first : Nat) (d : Draft) : (addEnds o first d).scope = d.scope := by
  unfold addEnds
  split <;> rfl

@[simp]
theorem children_addEnds (o : OpId) (first : Nat) (d : Draft) :
    (addEnds o first d).children = d.children := by
  unfold addEnds
  split <;> rfl

theorem numbered_addEnds (first : Nat) (h : d.context.Numbered) :
    (addEnds o first d).context.Numbered := by
  unfold addEnds
  split
  · exact ⟨h.size, h.recorded⟩
  · exact h

/-- The ends of an operation are entered under the operation of the first of its vertices. -/
theorem records_addEnds {first : Nat}
    (hop : ∀ x, d.scope.vertices[first]? = some x → x.op = some o)
    (h : Records base c d.context (.node d.scope d.children)) :
    Records base c (addEnds o first d).context (.node d.scope d.children) := by
  unfold addEnds
  split
  · next entry exit hentry _ =>
    refine ⟨h.places, fun a ha => ?_⟩
    rcases List.mem_cons.1 ha with rfl | ha
    · rw [List.head?_drop] at hentry
      exact Or.inr ⟨[], first, entry, hentry, hop entry hentry⟩
    · exact h.ends a ha
  · exact h

/-- The draft of the body of `call` after the members `pre`. -/
structure Left (p : Program) (base : Path) (c : Context) (call : Option OpId) (pre : List OpId)
    (d : Draft) : Prop where
  call_eq : d.scope.call = call
  records : Records base c d.context (.node d.scope d.children)
  numbered : d.context.Numbered
  neat : d.scope.Neat p pre
  below : ∀ t ∈ d.children, t.Neat p

/-- A member leaves its events, their chain and its ends. -/
theorem Left.addOp (h : d.Left p base c call pre) (kind : ScopeKind) :
    let d' := d.addOp base o (p.events kind o)
    Records base c d'.context (.node d'.scope d'.children) ∧ d'.context.Numbered ∧
      d'.children = d.children ∧ ∃ xs, (p.events kind o).length - 1 ≤ xs.length ∧
        d'.scope = { d.scope with
          vertices := d.scope.vertices ++ xs
          edges := d.scope.edges ++
            (List.range' d.scope.size ((p.events kind o).length - 1)).map fun v => (v, v + 1) } := by
  obtain ⟨hevents, ⟨xs, hxs⟩, hscope, hchildren⟩ := foldl_addEvent base (p.events kind o) d
  have hfold : ∀ (events : List Event) {d : Draft},
      Records base c d.context (.node d.scope d.children) → d.context.Numbered →
      let d' := events.foldl (addEvent base) d
      Records base c d'.context (.node d'.scope d'.children) ∧ d'.context.Numbered := by
    intro events
    induction events with
    | nil => exact fun hr hn => ⟨hr, hn⟩
    | cons e events ih => exact fun hr hn => ih (records_addEvent hr) (numbered_addEvent hn)
  obtain ⟨hrecords, hnumbered⟩ := hfold (p.events kind o) h.records h.numbered
  rw [Draft.addOp]
  generalize (p.events kind o).foldl (addEvent base) d = d₁ at *
  have hfirst : ∀ x, d₁.scope.vertices[d.scope.size]? = some x → x.op = some o := by
    intro x hx
    have hevent : (p.events kind o)[0]? = some x.event := by
      have := congrArg (·[d.scope.size]?) hevents
      simp only [List.getElem?_map, hx, Option.map_some] at this
      rw [List.getElem?_append_right (by simp [Scope.size])] at this
      simpa [Scope.size] using this.symm
    obtain ⟨_, _, rest, hcons, -⟩ :=
      events_eq_cons kind (happens_of_mem_events (List.mem_of_getElem? hevent))
    rw [hcons] at hevent
    exact (congrArg Event.op (Option.some.inj hevent)).symm
  refine ⟨?_, numbered_addEnds _ hnumbered, by simpa using hchildren, xs, ?_, ?_⟩
  · simp only [scope_addEnds, children_addEnds]
    exact records_addEnds hfirst (hrecords.grow (List.prefix_refl _) (List.prefix_refl _))
  · have := congrArg List.length hevents
    rw [← hxs] at this
    simp only [List.length_map, List.length_append] at this
    omega
  · rw [scope_addEnds, hscope, hxs]

theorem Left.step (h : d.Left p base c call pre)
    {inner : Level → OpId → Path → Context → Except Failure (ScopeTree × Context)}
    (hinner : ∀ level ids c t c', p.kind o = .hierarchy level ids → c.Numbered →
      inner level o (base ++ [d.children.length]) c = .ok (t, c') →
        Records (base ++ [d.children.length]) c c' t ∧ c'.Numbered ∧ t.Neat p)
    (hstep : p.addMember inner base d o = .ok d') : d'.Left p base c call (pre ++ [o]) := by
  rw [addMember] at hstep
  split at hstep
  · cases hstep
  · obtain ⟨hrecords, hnumbered, hchildren, xs, hlength, hscope⟩ := h.addOp (o := o) d.scope.kind
    generalize d.addOp base o (p.events d.scope.kind o) = d₁ at *
    have hcall : d₁.scope.call = call := by rw [hscope, ← h.call_eq]
    have hneat : p.kind o ≠ .finish → d₁.scope.Neat p (pre ++ [o]) := by
      intro hne
      rw [hscope]
      exact neat_chain h.neat hlength id fun hkind => absurd hkind hne
    have hbelow : ∀ t ∈ d₁.children, t.Neat p := hchildren ▸ h.below
    split at hstep
    · obtain rfl := Except.ok.inj hstep
      refine ⟨hcall, hrecords.grow (List.prefix_refl _) (List.prefix_refl _), hnumbered, ?_, hbelow⟩
      rw [markTerminator, hscope]
      exact neat_chain h.neat hlength (fun _ => Option.some_ne_none _) fun _ => Option.some_ne_none _
    · next level ids hkind =>
      obtain ⟨⟨t, c'⟩, hbuilt, hd'⟩ := exists_of_bind_eq_ok hstep
      obtain rfl := Except.ok.inj hd'
      obtain ⟨hchild, hnumbered', hneat'⟩ := hinner level ids _ t c' hkind hnumbered (hchildren ▸ hbuilt)
      refine ⟨hcall, hrecords.child (hchildren ▸ hchild), hnumbered', hneat (by simp [hkind]),
        fun u hu => ?_⟩
      rcases List.mem_append.1 hu with hu | hu
      · exact hbelow u hu
      · exact List.mem_singleton.1 hu ▸ hneat'
    · next hkind _ =>
      obtain rfl := Except.ok.inj hstep
      exact ⟨hcall, hrecords, hnumbered, hneat hkind, hbelow⟩

end Draft

/-! ## The tree -/

theorem Draft.left_bare (path : Path) (call : Option OpId) (kind : ScopeKind) (hc : c.Numbered) :
    (Draft.bare kind call path c).Left p path c call [] where
  call_eq := rfl
  records := records_addEvent (.refl _ _ _)
  numbered := numbered_addEvent hc
  neat := ⟨fun _ he => absurd he List.not_mem_nil, .nil, fun _ ho => absurd ho List.not_mem_nil⟩
  below _ ht := absurd ht List.not_mem_nil

theorem Draft.Left.foldlM
    {inner : Level → OpId → Path → Context → Except Failure (ScopeTree × Context)} (rest : List OpId)
    (hinner : ∀ o ∈ rest, ∀ level ids path c t c', p.kind o = .hierarchy level ids → c.Numbered →
      inner level o path c = .ok (t, c') → Records path c c' t ∧ c'.Numbered ∧ t.Neat p)
    (h : d.Left p base c call pre) (hrun : rest.foldlM (p.addMember inner base) d = .ok d') :
    d'.Left p base c call (pre ++ rest) := by
  induction rest generalizing pre d with
  | nil =>
    obtain rfl := Except.ok.inj hrun
    rwa [List.append_nil]
  | cons o rest ih =>
    obtain ⟨d₁, hstep, hrest⟩ := exists_of_bind_eq_ok hrun
    have h₁ := h.step (fun level ids => hinner o List.mem_cons_self level ids _) hstep
    rw [List.append_cons]
    exact ih (fun z hz => hinner z (List.mem_cons_of_mem _ hz)) h₁ hrest

/-- A root and children that are neat make a neat tree. -/
theorem Draft.Left.tree (h : d.Left p base c call (p.members (p.scopeBlocks call))) :
    Tree.Neat p (.node d.scope d.children) := by
  intro path s hs
  cases path with
  | nil =>
    obtain rfl : d.scope = s := Option.some.inj hs
    rw [h.call_eq]
    exact h.neat
  | cons i path =>
    rw [Tree.get?_cons, Tree.getFrom?, Option.bind_eq_some_iff] at hs
    obtain ⟨t, ht, hs⟩ := hs
    exact h.below t (List.mem_of_getElem? ht) path s hs

/-- The members of a call come before it in the arena. -/
theorem Program.Nests.members_lt (hp : p.Nests) (ho : o.index < p.ops.size)
    (hcall : (p.kind o).isHierarchy = true) {y : OpId} (hy : y ∈ p.members (p.body? o).toList) :
    y.index < o.index := by
  refine hp.inner_lt o y ?_
  rw [hp.body o ho hcall, hp.covers]
  exact List.mem_flatMap.2 ⟨y, hy, List.mem_cons_self⟩

theorem buildScope_left (hp : p.Nests) (depth : Nat) (kind : ScopeKind) (call : Option OpId)
    (path : Path) (hdepth : ∀ o ∈ p.members (p.scopeBlocks call), o.index < depth) (hc : c.Numbered)
    (h : p.buildScope depth kind call (p.scopeBlocks call) path c = .ok (t, c')) :
    Records path c c' t ∧ c'.Numbered ∧ t.Neat p := by
  induction depth generalizing kind call path c t c' with
  | zero =>
    obtain ⟨rfl, rfl⟩ := Prod.mk.inj (Except.ok.inj h)
    have hleft := Draft.left_bare (p := p) path call kind hc
    have hmembers : p.members (p.scopeBlocks call) = [] := List.eq_nil_iff_forall_not_mem.2
      fun o ho => Nat.not_lt_zero _ (hdepth o ho)
    exact ⟨hleft.records, hleft.numbered, Draft.Left.tree (hmembers ▸ hleft)⟩
  | succ depth ih =>
    obtain ⟨d, hrun, hresult⟩ := exists_of_bind_eq_ok h
    obtain ⟨rfl, rfl⟩ := Prod.mk.inj (Except.ok.inj hresult)
    have hleft := Draft.Left.foldlM _ (fun o ho level ids path c t c' hkind hc hbuilt => by
      refine ih _ (some o) _ (fun y hy => ?_) hc hbuilt
      have := hp.members_lt (hp.lt _ o ho) (by rw [hkind]; rfl) hy
      have := hdepth o ho
      omega) (Draft.left_bare path call kind hc) hrun
    rw [List.nil_append] at hleft
    exact ⟨hleft.records, hleft.numbered, hleft.tree⟩

/-- What building the scopes of a program leaves on record. -/
theorem Program.Nests.left (hp : p.Nests) (h : p.scopeTree = .ok (t, c)) :
    Records [] .empty c t ∧ c.Numbered ∧ t.Neat p := by
  refine buildScope_left hp _ _ none [] (fun o ho => ?_) ⟨rfl, fun key hkey => ?_⟩ h
  · have := hp.lt _ o ho
    omega
  · have hzero : Counters.zero.count key.kind = 0 := by cases key.kind <;> rfl
    rw [Context.empty, hzero] at hkey
    exact absurd hkey (Nat.not_lt_zero _)

end AsyncOrder
