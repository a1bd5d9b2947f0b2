import AsyncOrder.Proofs.Scope.Members

/-!
# Events of members

The vertices of a scope are its start and then, member by member, the events of its members.
Those of the member `o` in `pre ++ o :: post` have the places

    place pre, …, place pre + (events o).length - 1

and only the first of them has `o` as its operation, so an operation has one place.
-/

namespace AsyncOrder

/-- A vertex without its key and link. -/
def Vertex.event (x : Vertex) : Event := ⟨x.key.kind, x.label, x.op, x.owner⟩

/-- The event behind vertex 0. -/
def startEvent : Event := ⟨.start, "start", none, none⟩

namespace Program

variable {p : Program} {kind : ScopeKind} {o z : OpId} {e : Event}

/-! ## Events of one member -/

/-- Operations that bring a vertex. -/
def happens (p : Program) (o : OpId) : Bool :=
  (p.kind o).isAsync || (p.kind o).isLoop || p.kind o = .finish ||
    p.kind o = .yield && p.inLoop o

theorem computeEvents_eq (o : OpId) : ∃ (label : String) (labels : List String),
    p.computeEvents o = ⟨.compute, label, some o, some o⟩ ::
      labels.map fun l => ⟨.compute, l, none, some o⟩ := by
  rw [computeEvents]
  cases p.computeBody o with
  | nil => exact ⟨_, [], rfl⟩
  | cons first rest =>
    refine ⟨(p.kind first).label, rest.map fun o => (p.kind o).label, ?_⟩
    rw [List.map_map]
    rfl

theorem events_eq_nil_iff (kind : ScopeKind) : p.events kind o = [] ↔ p.happens o = false := by
  obtain ⟨_, _, hcompute⟩ := p.computeEvents_eq o
  cases hk : p.kind o <;>
    simp [events, happens, hk, hcompute, OpKind.isAsync, OpKind.isLoop]

/-- The first event of a member is of the member itself, the others are only owned by it. -/
theorem events_eq_cons (kind : ScopeKind) (h : p.happens o = true) : ∃ vertex label rest,
    p.events kind o = ⟨vertex, label, some o, some o⟩ :: rest ∧
      (∀ e ∈ rest, e.op = none ∧ e.owner = some o ∧ e.kind = .compute ∧ p.kind o = .compute) := by
  obtain ⟨label, labels, hcompute⟩ := p.computeEvents_eq o
  cases hk : p.kind o <;>
    simp_all [events, happens, OpKind.isAsync, OpKind.isLoop]

theorem happens_of_mem_events (he : e ∈ p.events kind o) : p.happens o = true := by
  have hne : p.events kind o ≠ [] := List.ne_nil_of_mem he
  rw [ne_eq, events_eq_nil_iff] at hne
  simpa using hne

theorem owner_of_mem_events (he : e ∈ p.events kind o) : e.owner = some o := by
  have h := happens_of_mem_events he
  obtain ⟨_, _, rest, heq, hrest⟩ := events_eq_cons kind h
  rw [heq] at he
  rcases List.mem_cons.1 he with rfl | he
  · rfl
  · exact (hrest e he).2.1

/-- An event that has an operation is the first of the member that is the operation. -/
theorem getElem?_events_op {i : Nat} (h : (p.events kind o)[i]? = some e)
    (hop : e.op = some z) : z = o ∧ i = 0 := by
  have hhappens := happens_of_mem_events (List.mem_of_getElem? h)
  obtain ⟨_, _, rest, heq, hrest⟩ := events_eq_cons kind hhappens
  rw [heq] at h
  cases i with
  | zero =>
    obtain rfl := Option.some.inj h
    exact ⟨(Option.some.inj hop).symm, rfl⟩
  | succ i =>
    rw [List.getElem?_cons_succ] at h
    rw [(hrest e (List.mem_of_getElem? h)).1] at hop
    simp at hop

/-- Kinds of vertices for kinds of operations. -/
theorem kind_of_mem_events (he : e ∈ p.events kind o) :
    (e.kind = .hierarchyCall ↔ (p.kind o).isHierarchy = true) ∧
      (e.kind = .hierarchyTerminator ↔ p.kind o = .finish) ∧
      (e.kind = .controlLoop ↔ (p.kind o).isLoop = true) ∧
      (e.kind = .terminator ↔ p.kind o = .yield) ∧ e.kind ≠ .start := by
  obtain ⟨label, labels, hcompute⟩ := p.computeEvents_eq o
  cases hk : p.kind o <;> simp only [events, hk, hcompute] at he
  case compute =>
    rcases List.mem_cons.1 he with rfl | he
    · simp [OpKind.isHierarchy, OpKind.isLoop]
    · obtain ⟨l, -, rfl⟩ := List.mem_map.1 he
      simp [OpKind.isHierarchy, OpKind.isLoop]
  case yield =>
    split at he
    · obtain rfl := List.mem_singleton.1 he
      simp [OpKind.isHierarchy, OpKind.isLoop]
    · exact absurd he List.not_mem_nil
  all_goals first
    | exact absurd he List.not_mem_nil
    | obtain rfl := List.mem_singleton.1 he
      simp [OpKind.isHierarchy, OpKind.isLoop]

/-- The calls among the events of a member are the member, if it is a hierarchy call. -/
theorem calls_events (kind : ScopeKind) (o : OpId) :
    ((p.events kind o).filter fun e => e.kind = .hierarchyCall).map Event.op =
      if (p.kind o).isHierarchy then [some o] else [] := by
  cases hcall : (p.kind o).isHierarchy with
  | true =>
    obtain ⟨level, ids, hk⟩ : ∃ level ids, p.kind o = .hierarchy level ids := by
      cases hk : p.kind o <;> simp_all [OpKind.isHierarchy]
    simp [events, hk]
  | false =>
    have hnone : ((p.events kind o).filter fun e => e.kind = .hierarchyCall) = [] := by
      refine List.filter_eq_nil_iff.2 fun e he hkind => ?_
      rw [decide_eq_true_eq, (kind_of_mem_events he).1, hcall] at hkind
      cases hkind
    rw [hnone]
    rfl

/-! ## Places -/

/-- The vertex at which the events of a member begin, by the members before it. -/
def place (p : Program) (kind : ScopeKind) (pre : List OpId) : Nat :=
  1 + (pre.flatMap (p.events kind)).length

/-- The events of a scope with the given members. -/
def layout (p : Program) (kind : ScopeKind) (ops : List OpId) : List Event :=
  startEvent :: ops.flatMap (p.events kind)

variable {ops pre post pre' post' : List OpId}

theorem length_layout : (p.layout kind ops).length = p.place kind ops := by
  rw [layout, List.length_cons, place, Nat.add_comm]

theorem layout_append (ops pre : List OpId) :
    p.layout kind (pre ++ ops) = p.layout kind pre ++ ops.flatMap (p.events kind) := by
  rw [layout, layout, List.flatMap_append, List.cons_append]

theorem place_append_singleton (pre : List OpId) (o : OpId) :
    p.place kind (pre ++ [o]) = p.place kind pre + (p.events kind o).length := by
  rw [place, place, List.flatMap_append, List.length_append, List.flatMap_singleton]
  omega

theorem place_le_place (pre post : List OpId) :
    p.place kind pre ≤ p.place kind (pre ++ post) := by
  rw [place, place, List.flatMap_append, List.length_append]
  omega

/-- The calls of a layout are the hierarchy calls among the members, in order. -/
theorem calls_layout : ((p.layout kind ops).filter fun e => e.kind = .hierarchyCall).map Event.op =
    (ops.filter fun o => (p.kind o).isHierarchy).map some := by
  rw [layout, List.filter_cons_of_neg (by simp [startEvent])]
  induction ops with
  | nil => rfl
  | cons o ops ih =>
    rw [List.flatMap_cons, List.filter_append, List.map_append, ih, calls_events, List.filter_cons]
    split <;> rfl

/-- A vertex after the start stands for an event of a member. -/
theorem getElem?_layout_iff {v : Nat} (hv : v ≠ 0) :
    (p.layout kind ops)[v]? = some e ↔ ∃ pre o post i, ops = pre ++ o :: post ∧
      v = p.place kind pre + i ∧ (p.events kind o)[i]? = some e := by
  obtain ⟨n, rfl⟩ := Nat.exists_eq_succ_of_ne_zero hv
  rw [layout, List.getElem?_cons_succ, getElem?_flatMap_iff]
  refine exists_congr fun pre => exists_congr fun o => exists_congr fun post =>
    exists_congr fun i => and_congr_right fun _ => and_congr_left fun _ => ?_
  rw [place]
  omega

/-- The vertex of an operation is the first one of a member. -/
theorem getElem?_layout_op {v : Nat} (h : (p.layout kind ops)[v]? = some e)
    (hop : e.op = some o) : p.happens o = true ∧
      ∃ pre post, ops = pre ++ o :: post ∧ v = p.place kind pre := by
  by_cases hv : v = 0
  · subst hv
    obtain rfl := Option.some.inj h
    simp [startEvent] at hop
  · obtain ⟨pre, o', post, i, hops, hplace, hi⟩ := (getElem?_layout_iff hv).1 h
    obtain ⟨rfl, rfl⟩ := getElem?_events_op hi hop
    exact ⟨happens_of_mem_events (List.mem_of_getElem? hi), pre, post, hops, hplace⟩

/-- Members in order have their events in order. -/
theorem place_lt_of_idxOf (p : Program) (kind : ScopeKind) (hnodup : ops.Nodup) (ho : ops = pre ++ o :: post)
    (hz : ops = pre' ++ z :: post') (hlt : ops.idxOf z < ops.idxOf o) :
    p.place kind (pre' ++ [z]) ≤ p.place kind pre := by
  have hidx : ∀ {pre post : List OpId} {a : OpId}, ops = pre ++ a :: post →
      ops.idxOf a = pre.length := by
    intro pre post a h
    have hnot : a ∉ pre := by
      rw [h, List.nodup_append] at hnodup
      intro ha
      exact hnodup.2.2 a ha a List.mem_cons_self rfl
    rw [h, List.idxOf_append_of_notMem hnot, List.idxOf_cons_self, Nat.add_zero]
  rw [hidx ho, hidx hz] at hlt
  have hprefix : pre' ++ [z] <+: pre := by
    have hz' : pre' ++ [z] <+: ops := ⟨post', by rw [hz, List.append_assoc]; rfl⟩
    have ho' : pre <+: ops := ⟨o :: post, ho.symm⟩
    refine List.prefix_of_prefix_length_le hz' ho' ?_
    rw [List.length_append]
    exact hlt
  obtain ⟨rest, rfl⟩ := hprefix
  exact place_le_place _ _

end Program

end AsyncOrder
