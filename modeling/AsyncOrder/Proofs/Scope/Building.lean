import AsyncOrder.Proofs.Scope.Events

/-!
# How a scope is built

While a scope is built, contexts only grow (`Extends`) and never repeat a key or an operation
(`Fresh`).  The members entered so far determine the draft (`Drawn`):

    vertices       start and the events of the members, each found under its key
    edges          the chains of the members
    ends           the first and the last vertex of each member that happens
-/

namespace AsyncOrder

/-! ## Contexts that grow -/

namespace Context

/-- What `c` knows, `c'` knows. -/
structure Extends (c c' : Context) : Prop where
  lookup : ∀ {key r}, c.lookup? key = some r → c'.lookup? key = some r
  entry : ∀ {o key}, c.entry? o = some key → c'.entry? o = some key
  exit : ∀ {o key}, c.exit? o = some key → c'.exit? o = some key

/-- Keys are handed out in order, and only operations that are `done` have ends. -/
structure Fresh (c : Context) (done : List OpId) : Prop where
  size : c.counters.counts.size = VertexKind.all.length
  seq : ∀ e ∈ c.places, e.1.seq < c.counters.count e.1.kind
  ops : ∀ e ∈ c.ends, e.1 ∈ done

variable {c c' c'' : Context} {done done' : List OpId} {o : OpId} {key a b : Key}
variable {kind : VertexKind} {r : Path × Nat}

theorem Extends.refl (c : Context) : c.Extends c := ⟨id, id, id⟩

theorem Extends.trans (h : c.Extends c') (h' : c'.Extends c'') : c.Extends c'' :=
  ⟨fun hr => h'.lookup (h.lookup hr), fun hk => h'.entry (h.entry hk),
    fun hk => h'.exit (h.exit hk)⟩

theorem fresh_empty : Context.empty.Fresh [] where
  size := rfl
  seq _ he := absurd he List.not_mem_nil
  ops _ he := absurd he List.not_mem_nil

theorem Fresh.mono (h : c.Fresh done) (hdone : ∀ o ∈ done, o ∈ done') : c.Fresh done' :=
  ⟨h.size, h.seq, fun e he => hdone _ (h.ops e he)⟩

theorem Fresh.lookup?_eq_none (h : c.Fresh done) (kind : VertexKind) :
    c.lookup? ⟨kind, c.counters.count kind⟩ = none := by
  rw [lookup?, Option.map_eq_none_iff, List.find?_eq_none]
  intro e he heq
  have hseq := h.seq e he
  rw [decide_eq_true_eq] at heq
  rw [heq] at hseq
  exact Nat.lt_irrefl _ hseq

theorem Fresh.find?_ends_eq_none (h : c.Fresh done) (ho : o ∉ done) :
    c.ends.find? (·.1 = o) = none := by
  rw [List.find?_eq_none]
  intro e he heq
  rw [decide_eq_true_eq] at heq
  exact ho (heq ▸ h.ops e he)

/-- The ends of an operation that has none yet. -/
theorem Fresh.addEnds (h : c.Fresh done) (ho : o ∉ done) (a b : Key) :
    c.Extends { c with ends := (o, a, b) :: c.ends } ∧
      Fresh { c with ends := (o, a, b) :: c.ends } (o :: done) := by
  have hnone := h.find?_ends_eq_none ho
  have hfind : ∀ {z e}, c.ends.find? (·.1 = z) = some e →
      List.find? (·.1 = z) ((o, a, b) :: c.ends) = some e := by
    intro z e he
    rw [List.find?_cons_of_neg, he]
    rw [decide_eq_true_eq]
    rintro rfl
    rw [hnone] at he
    simp at he
  refine ⟨⟨id, fun hk => ?_, fun hk => ?_⟩, h.size, h.seq, fun e he => ?_⟩
  · obtain ⟨e, he, hk⟩ := Option.map_eq_some_iff.1 hk
    exact Option.map_eq_some_iff.2 ⟨e, hfind he, hk⟩
  · obtain ⟨e, he, hk⟩ := Option.map_eq_some_iff.1 hk
    exact Option.map_eq_some_iff.2 ⟨e, hfind he, hk⟩
  · rcases List.mem_cons.1 he with rfl | he
    · exact List.mem_cons_self
    · exact List.mem_cons_of_mem _ (h.ops e he)

theorem count_alloc (hsize : c.counters.counts.size = VertexKind.all.length)
    (k : VertexKind) : (c.counters.alloc kind).2.count k =
      c.counters.count k + if k = kind then 1 else 0 := by
  have hlt : ∀ k : VertexKind, k.ordinal < c.counters.counts.size := by
    intro k
    rw [hsize]
    cases k <;> decide
  have hinj : kind.ordinal = k.ordinal ↔ k = kind := by
    cases kind <;> cases k <;> decide
  simp only [Counters.alloc, Counters.count, Array.getElem?_modify, hinj]
  rw [Array.getElem?_eq_getElem (hlt k)]
  split <;> rfl

end Context

/-! ## Events -/

namespace Draft

open Context

variable {path : Path} {d : Draft} {e : Event} {events : List Event} {done : List OpId}
variable {o : OpId}

/-- The events become vertices, each found under its key; all else stays. -/
structure Adds (path : Path) (events : List Event) (d d' : Draft) : Prop where
  scope : ∃ xs, d'.scope = { d.scope with vertices := d.scope.vertices ++ xs } ∧
    xs.map Vertex.event = events ∧
    ∀ i x, xs[i]? = some x → d'.context.lookup? x.key = some (path, d.scope.size + i)
  children : d'.children = d.children
  ends : d'.context.ends = d.context.ends
  extends' : d.context.Extends d'.context
  fresh : ∀ done, d.context.Fresh done → d'.context.Fresh done

theorem adds_addEvent (path : Path) (e : Event) (hd : d.context.Fresh done) : Adds path [e] d (d.addEvent path e) := by
  have hnone := hd.lookup?_eq_none e.kind
  refine ⟨⟨[⟨⟨e.kind, _⟩, e.label, e.op, e.owner, none⟩], rfl, rfl, ?_⟩, rfl, rfl, ?_, ?_⟩
  · intro i x hx
    obtain ⟨rfl, rfl⟩ : i = 0 ∧ _ = x := by
      cases i with
      | zero => exact ⟨rfl, Option.some.inj hx⟩
      | succ i => simp at hx
    simp only [addEvent, lookup?, Counters.alloc, List.find?_cons, decide_true, Option.map_some]
    rfl
  · refine ⟨fun {key r} hr => ?_, id, id⟩
    have hne : (⟨e.kind, d.context.counters.count e.kind⟩ : Key) ≠ key := by
      rintro rfl
      rw [hnone] at hr
      simp at hr
    simpa only [addEvent, lookup?, Counters.alloc, List.find?_cons, hne, decide_false] using hr
  · intro done hd
    refine ⟨?_, fun a ha => ?_, hd.ops⟩
    · simpa only [addEvent, Counters.alloc, Array.size_modify] using hd.size
    · have hcount : (d.addEvent path e).context.counters.count a.1.kind =
          d.context.counters.count a.1.kind + if a.1.kind = e.kind then 1 else 0 :=
        count_alloc hd.size a.1.kind
      rw [hcount]
      rcases List.mem_cons.1 ha with rfl | ha
      · rw [if_pos rfl]
        exact Nat.lt_succ_self _
      · have := hd.seq a ha
        omega

theorem adds_foldl (path : Path) (events : List Event) {d : Draft} (hd : d.context.Fresh done) :
    Adds path events d (events.foldl (addEvent path) d) := by
  induction events generalizing d with
  | nil =>
    exact ⟨⟨[], by rw [List.append_nil]; rfl, rfl, by simp⟩, rfl, rfl, .refl _, fun _ h => h⟩
  | cons e events ih =>
    have hfirst := adds_addEvent path e hd
    have hrest := ih (hfirst.fresh _ hd)
    obtain ⟨xs, hxs, hmap, hlook⟩ := hfirst.scope
    obtain ⟨ys, hys, hmap', hlook'⟩ := hrest.scope
    refine ⟨⟨xs ++ ys, ?_, ?_, ?_⟩, hrest.children.trans hfirst.children,
      hrest.ends.trans hfirst.ends, hfirst.extends'.trans hrest.extends',
      fun done h => hrest.fresh done (hfirst.fresh done h)⟩
    · rw [List.foldl_cons, hys, hxs, List.append_assoc]
    · rw [List.map_append, hmap, hmap']
      rfl
    · have hlen : xs.length = 1 := by
        rw [← List.length_map (f := Vertex.event), hmap]
        rfl
      intro i x hx
      rw [List.getElem?_append] at hx
      split at hx
      · exact hrest.extends'.lookup (hlook i x hx)
      · have := hlook' (i - xs.length) x hx
        rw [hxs, Scope.size, List.length_append, hlen] at this
        rw [List.foldl_cons, this, Scope.size]
        congr 2
        omega

variable {first : Nat} {x : Vertex} {rest : List Vertex}

theorem addEnds_of_drop_eq_nil (h : d.scope.vertices.drop first = []) : addEnds o first d = d := by
  rw [addEnds, h]
  rfl

theorem addEnds_of_drop_eq_cons (h : d.scope.vertices.drop first = x :: rest) :
    addEnds o first d = { d with context := { d.context with
      ends := (o, x.key, ((x :: rest).getLast (List.cons_ne_nil x rest)).key) ::
        d.context.ends } } := by
  have hlast : d.scope.vertices.getLast? =
      some ((x :: rest).getLast (List.cons_ne_nil x rest)) := by
    rw [← List.take_append_drop first d.scope.vertices, h,
      List.getLast?_append_of_ne_nil _ (List.cons_ne_nil x rest), List.getLast?_eq_some_getLast]
  rw [addEnds, h, hlast]
  rfl

end Draft

/-! ## Scopes drawn from members -/

/-- The scope at `path` is what the members `ops` make of it, and the context finds it. -/
structure Drawn (p : Program) (c : Context) (path : Path) (kind : ScopeKind) (call : Option OpId)
    (ops : List OpId) (s : Scope) : Prop where
  kind_eq : s.kind = kind
  call_eq : s.call = call
  vertices : s.vertices.map Vertex.event = p.layout kind ops
  edges : ∀ u v, (u, v) ∈ s.edges ↔ v = u + 1 ∧ ∃ pre o post, ops = pre ++ o :: post ∧
    p.place kind pre ≤ u ∧ v < p.place kind (pre ++ [o])
  places : ∀ v x, s.vertices[v]? = some x → c.lookup? x.key = some (path, v)
  ends : ∀ pre o post, ops = pre ++ o :: post → p.happens o = true →
    ∃ a b, s.vertices[p.place kind pre]? = some a ∧
      s.vertices[p.place kind (pre ++ [o]) - 1]? = some b ∧
      c.entry? o = some a.key ∧ c.exit? o = some b.key
  terminator : ∀ t, s.terminator = some t → ∃ pre o post, ops = pre ++ o :: post ∧
    p.kind o = .finish ∧ t = p.place kind pre

namespace Drawn

variable {p : Program} {c c' : Context} {path : Path} {kind : ScopeKind} {call : Option OpId}
variable {ops : List OpId} {s : Scope} {o : OpId} {d : Draft} {done : List OpId}

theorem mono (h : Drawn p c path kind call ops s) (hc : c.Extends c') :
    Drawn p c' path kind call ops s where
  kind_eq := h.kind_eq
  call_eq := h.call_eq
  vertices := h.vertices
  edges := h.edges
  places v x hx := hc.lookup (h.places v x hx)
  ends pre o post hops ho := by
    obtain ⟨a, b, ha, hb, hentry, hexit⟩ := h.ends pre o post hops ho
    exact ⟨a, b, ha, hb, hc.entry hentry, hc.exit hexit⟩
  terminator := h.terminator

theorem size (h : Drawn p c path kind call ops s) : s.size = p.place kind ops := by
  rw [Scope.size, ← List.length_map (f := Vertex.event), h.vertices, Program.length_layout]

theorem bare (hc : c.Fresh done) :
    Drawn p (Draft.bare kind call path c).context path kind call []
      (Draft.bare kind call path c).scope := by
  have hadds := Draft.adds_addEvent path ⟨.start, "start", none, none⟩
    (d := ⟨⟨kind, call, [], [], none⟩, [], c⟩) hc
  obtain ⟨xs, hscope, hmap, hlook⟩ := hadds.scope
  refine ⟨rfl, rfl, rfl, fun u v => ?_, fun v x hx => ?_, ?_, fun t ht => by cases ht⟩
  · constructor
    · intro h
      exact absurd h List.not_mem_nil
    · rintro ⟨-, pre, o, post, hops, -⟩
      simp at hops
  · rw [Draft.bare, hscope] at hx
    simpa [Scope.size, Draft.bare] using hlook v x hx
  · intro pre o post hops
    simp at hops

/-- The chain of one more member. -/
theorem edges_append (hedges : ∀ u v, (u, v) ∈ s.edges ↔ v = u + 1 ∧ ∃ pre o post,
      ops = pre ++ o :: post ∧ p.place kind pre ≤ u ∧ v < p.place kind (pre ++ [o])) (u v : Nat) :
    (u, v) ∈ s.edges ++ ((List.range' (p.place kind ops) ((p.events kind o).length - 1)).map
        fun v => (v, v + 1)) ↔
      v = u + 1 ∧ ∃ pre z post, ops ++ [o] = pre ++ z :: post ∧ p.place kind pre ≤ u ∧
        v < p.place kind (pre ++ [z]) := by
  rw [List.mem_append, hedges]
  have hchain : (u, v) ∈ (List.range' (p.place kind ops) ((p.events kind o).length - 1)).map
      (fun v => (v, v + 1)) ↔
      v = u + 1 ∧ p.place kind ops ≤ u ∧ v < p.place kind (ops ++ [o]) := by
    rw [Program.place_append_singleton, List.mem_map]
    simp only [List.mem_range'_1, Prod.mk.injEq]
    constructor
    · rintro ⟨w, hw, rfl, rfl⟩
      omega
    · rintro ⟨rfl, hle, hlt⟩
      exact ⟨u, by omega, rfl, rfl⟩
  rw [hchain]
  constructor
  · rintro (⟨rfl, pre, z, post, rfl, hle, hlt⟩ | ⟨rfl, hle, hlt⟩)
    · exact ⟨rfl, pre, z, post ++ [o], by rw [List.append_assoc]; rfl, hle, hlt⟩
    · exact ⟨rfl, ops, o, [], rfl, hle, hlt⟩
  · rintro ⟨rfl, pre, z, post, hops, hle, hlt⟩
    rcases append_singleton_eq_append_cons hops with ⟨rfl, rfl, -⟩ | ⟨post', -, rfl⟩
    · exact Or.inr ⟨rfl, hle, hlt⟩
    · exact Or.inl ⟨rfl, pre, z, post', rfl, hle, hlt⟩

/-- One more member: its vertices, their chain and its ends. -/
theorem append (h : Drawn p c path kind call ops s) (hc : c.Extends c') {xs : List Vertex}
    (hmap : xs.map Vertex.event = p.events kind o)
    (hlook : ∀ i x, xs[i]? = some x → c'.lookup? x.key = some (path, s.size + i))
    (hends : p.happens o = true → ∃ a b, xs.head? = some a ∧ xs.getLast? = some b ∧
      c'.entry? o = some a.key ∧ c'.exit? o = some b.key) :
    Drawn p c' path kind call (ops ++ [o]) { s with
      vertices := s.vertices ++ xs
      edges := s.edges ++ ((List.range' (p.place kind ops) ((p.events kind o).length - 1)).map
        fun v => (v, v + 1)) } := by
  have hsize : s.vertices.length = p.place kind ops := h.size
  have hlen : xs.length = (p.events kind o).length := by rw [← hmap, List.length_map]
  refine ⟨h.kind_eq, h.call_eq, ?_, edges_append h.edges, fun v x hx => ?_, ?_, fun t ht => ?_⟩
  · rw [List.map_append, h.vertices, hmap, Program.layout_append, List.flatMap_singleton]
  · rw [List.getElem?_append] at hx
    split at hx
    · exact hc.lookup (h.places v x hx)
    · rw [hlook (v - s.vertices.length) x hx, Scope.size]
      congr 2
      omega
  · intro pre z post hops hz
    rcases append_singleton_eq_append_cons hops with ⟨rfl, rfl, -⟩ | ⟨post', -, rfl⟩
    · obtain ⟨a, b, ha, hb, hentry, hexit⟩ := hends hz
      have hpos : 0 < xs.length := by
        rw [List.head?_eq_some_iff] at ha
        obtain ⟨rest, rfl⟩ := ha
        exact Nat.succ_pos _
      refine ⟨a, b, ?_, ?_, hentry, hexit⟩
      · rw [← hsize, List.getElem?_append_right (Nat.le_refl _), Nat.sub_self,
          ← List.head?_eq_getElem?, ha]
      · rw [Program.place_append_singleton, ← hsize, ← hlen,
          List.getElem?_append_right (by omega), ← hb, List.getLast?_eq_getElem?]
        congr 1
        omega
    · obtain ⟨a, b, ha, hb, hentry, hexit⟩ := h.ends pre z post' rfl hz
      have hgrow : ∀ {v : Nat} {x : Vertex}, s.vertices[v]? = some x →
          (s.vertices ++ xs)[v]? = some x := by
        intro v x hx
        rw [List.getElem?_append_left (List.getElem?_eq_some_iff.1 hx).1, hx]
      exact ⟨a, b, hgrow ha, hgrow hb, hc.entry hentry, hc.exit hexit⟩
  · obtain ⟨pre, z, post, rfl, hz, rfl⟩ := h.terminator t ht
    exact ⟨pre, z, post ++ [o], by rw [List.append_assoc]; rfl, hz, rfl⟩

theorem addOp (h : Drawn p d.context path kind call ops d.scope) (hd : d.context.Fresh done)
    (ho : o ∉ done) :
    Drawn p (d.addOp path o (p.events kind o)).context path kind call (ops ++ [o])
        (d.addOp path o (p.events kind o)).scope ∧
      d.context.Extends (d.addOp path o (p.events kind o)).context ∧
      (d.addOp path o (p.events kind o)).context.Fresh (o :: done) ∧
      (d.addOp path o (p.events kind o)).children = d.children := by
  have hadds := Draft.adds_foldl path (p.events kind o) hd
  rw [Draft.addOp, h.size]
  generalize (p.events kind o).foldl (Draft.addEvent path) d = d' at hadds
  obtain ⟨xs, hscope, hmap, hlook⟩ := hadds.scope
  have hfresh := hadds.fresh _ hd
  have hdrop : d'.scope.vertices.drop (p.place kind ops) = xs := by
    rw [hscope, ← h.size, Scope.size, List.drop_left]
  cases xs with
  | nil =>
    have hhappens : p.happens o = false := by
      rw [← Program.events_eq_nil_iff kind, ← hmap]
      rfl
    have := h.append hadds.extends' hmap hlook fun hh => by rw [hh] at hhappens; cases hhappens
    rw [Draft.addEnds_of_drop_eq_nil (by exact hdrop), hscope]
    exact ⟨this, hadds.extends', hfresh.mono fun _ => List.mem_cons_of_mem _, hadds.children⟩
  | cons x rest =>
    obtain ⟨hends, hfresh'⟩ := hfresh.addEnds ho x.key
      ((x :: rest).getLast (List.cons_ne_nil x rest)).key
    have := h.append (hadds.extends'.trans hends) hmap
      (fun i x hx => hends.lookup (hlook i x hx)) fun _ => by
        refine ⟨x, _, rfl, List.getLast?_eq_some_getLast (List.cons_ne_nil x rest), ?_, ?_⟩ <;>
          simp [Context.entry?, Context.exit?]
    rw [Draft.addEnds_of_drop_eq_cons (by exact hdrop), hscope]
    exact ⟨this, hadds.extends'.trans hends, hfresh', hadds.children⟩

/-- The last member ends the scope. -/
theorem markTerminator (h : Drawn p d.context path kind call (ops ++ [o]) d.scope)
    (ho : p.kind o = .finish) :
    Drawn p d.context path kind call (ops ++ [o]) d.markTerminator.scope := by
  refine ⟨h.kind_eq, h.call_eq, h.vertices, h.edges, h.places, h.ends, fun t ht => ?_⟩
  have hlen : (p.events kind o).length = 1 := by simp [Program.events, ho]
  refine ⟨ops, o, [], rfl, ho, ?_⟩
  rw [← Option.some.inj ht, h.size, Program.place_append_singleton, hlen]
  rfl

end Drawn

end AsyncOrder
