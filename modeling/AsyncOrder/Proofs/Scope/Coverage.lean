import AsyncOrder.Proofs.Scope.Resolving

/-!
# Every asynchronous operation has a vertex

Every operation is a member of a scope, or a primitive in the body of a compute: a scope takes in
what lies in its loops and conditionals, the body of a hierarchy call has a scope of its own, and
a compute that holds anything but primitives does not build.  So every asynchronous operation is
the operation of a vertex, and of one only.
-/

namespace AsyncOrder

open Program

variable {p : Program} {c : Context} {path path' : Path} {call : Option OpId} {kind : ScopeKind}
variable {blocks : List BlockId} {t : ScopeTree} {s s' : Scope} {o z : OpId} {u v : Nat}
variable {ops pre post : List OpId}

/-- The operation is a member of a scope of the tree. -/
def Program.MemberOf (p : Program) (c : Context) (t : ScopeTree) (o : OpId) : Prop :=
  ∃ path call blocks t', t.at? path = some t' ∧ p.IsScope call blocks ∧
    Laid p c path call blocks t' ∧ o ∈ p.members blocks

theorem regions_eq_nil_of_primitive (hp : p.WellFormed) (hz : z.index < p.ops.size)
    (h : (p.kind z).isComputePrimitive = true) : (p.op z).regions = [] := by
  have hall := hp.complete z hz
  have hnil : Lowering.bodyRegions (p.kind z) = [] := by
    cases hk : p.kind z <;> simp_all [OpKind.isComputePrimitive, Lowering.bodyRegions]
  rw [hnil] at hall
  cases hregions : (p.op z).regions with
  | nil => rfl
  | cons b bs =>
    rw [hregions] at hall
    cases hall

theorem cases_of_mem_nested (hp : p.WellFormed) (ho : o ∈ p.nested z) :
    p.shares z = true ∨ (p.kind z).isHierarchy = true ∨ p.kind z = .compute := by
  obtain ⟨hlt, hparent⟩ := hp.linked.mem_nested_iff.1 ho
  obtain ⟨b, hb, -⟩ := List.mem_flatMap.1 ho
  have hz := hp.linked.owner_lt ((hp.linked.mem_regions z b).1 hb)
  obtain ⟨r, hr, -⟩ := hp.complete_of_mem hz hb
  cases hk : p.kind z <;> simp_all [Lowering.bodyRegions, shares, OpKind.isLoop, OpKind.isHierarchy]

/-- A call among the members has its child. -/
theorem Laid.exists_child (ht : Laid p c path call blocks t) (hz : z ∈ p.members blocks)
    (hcall : (p.kind z).isHierarchy = true) :
    ∃ i t', t.at? [i] = some t' ∧ Laid p c (path ++ [i]) (some z) (p.body? z).toList t' := by
  obtain ⟨drawn, native, length, children⟩ := ht
  next s ts =>
  have hin : z ∈ p.callsIn (p.members blocks) := List.mem_filter.2 ⟨hz, hcall⟩
  obtain ⟨i, hi⟩ := List.mem_iff_getElem?.1 hin
  have hilt : i < ts.length := length ▸ (List.getElem?_eq_some_iff.1 hi).1
  have hchild : ts[i]? = some ts[i] := List.getElem?_eq_getElem hilt
  refine ⟨i, ts[i], ?_, children i z _ hi hchild⟩
  rw [Tree.at?, Tree.children, hchild]
  rfl

/-- A compute among the members holds primitives only. -/
theorem Laid.isComputePrimitive (ht : Laid p c path call blocks t) (hz : z ∈ p.members blocks)
    (hcompute : p.kind z = .compute) (ho : o ∈ p.computeBody z) :
    (p.kind o).isComputePrimitive = true := by
  obtain ⟨-, native, -, -⟩ := ht
  have hforeign := native z hz
  rw [foreign?, if_pos hcompute, List.find?_eq_none] at hforeign
  simpa using hforeign o ho

theorem Program.computeBody_eq_of_regions {b : BlockId} (h : (p.op z).regions = [b]) :
    p.computeBody z = p.nested z := by
  rw [computeBody, body?, nested, h, List.flatMap_singleton]
  rfl

theorem Program.WellFormed.computeBody_eq (hp : p.WellFormed) (hz : z.index < p.ops.size)
    (hkind : p.kind z = .compute) : p.computeBody z = p.nested z := by
  obtain ⟨b, hregions, -⟩ := hp.regions_eq_singleton hz (by rw [hkind]; rfl)
  exact computeBody_eq_of_regions hregions

/-- Every operation is a member of a scope, or a primitive. -/
theorem Laid.covers (hp : p.WellFormed) (ht : Laid p c [] none (p.funcs.map (·.body)) t)
    (ho : o.index < p.ops.size) : p.MemberOf c t o ∨ (p.kind o).isComputePrimitive = true := by
  obtain ⟨n, hn⟩ : ∃ n, p.ops.size - o.index ≤ n := ⟨_, Nat.le_refl _⟩
  -- outwards, since what an operation lies in has the greater number
  induction n generalizing o with
  | zero => omega
  | succ n ih =>
    cases hparent : p.parentOp? o with
    | none =>
      have hbody : (p.op o).parent ∈ p.funcs.map (·.body) :=
        (hp.mem_bodies _).2 ⟨hp.linked.parent_lt ho, hparent⟩
      have hmem : o ∈ p.blocksOps (p.funcs.map (·.body)) :=
        List.mem_flatMap.2 ⟨_, hbody, hp.linked.mem_ops_parent ho⟩
      exact Or.inl ⟨[], none, _, t, rfl, .host, ht,
        mem_tour_self hp.linked (hp.linked.blocksOps_lt _) hmem⟩
    | some z =>
      have hnested : o ∈ p.nested z := hp.linked.mem_nested_iff.2 ⟨ho, hparent⟩
      have hlt := hp.linked.nested_lt hnested
      have hz : z.index < p.ops.size := hp.linked.owner_lt hparent
      rcases ih hz (by omega) with ⟨path, call, blocks, t', hat, hs, hlaid, hmem⟩ | hprim
      · rcases cases_of_mem_nested hp hnested with hshares | hcall | hcompute
        · exact Or.inl ⟨path, call, blocks, t', hat, hs, hlaid, mem_tour_of_under hp.linked
            (hp.linked.blocksOps_lt _) hmem (.single ⟨hshares, hnested⟩)⟩
        · obtain ⟨i, child, hchild, hlaid⟩ := hlaid.exists_child hmem hcall
          rw [hp.nested_hierarchy hz hcall] at hnested
          exact Or.inl ⟨path ++ [i], some z, _, child, Tree.at?_trans hat hchild, .body hz hcall,
            hlaid, mem_tour_self hp.linked (hp.linked.blocksOps_lt _) hnested⟩
        · exact Or.inr (hlaid.isComputePrimitive hmem hcompute
            (hp.computeBody_eq hz hcompute ▸ hnested))
      · obtain ⟨b, hb, -⟩ := List.mem_flatMap.1 hnested
        rw [regions_eq_nil_of_primitive hp hz hprim] at hb
        exact absurd hb List.not_mem_nil

/-! ## Vertices of operations -/

/-- The vertex is part of the member. -/
def Scope.IsOf (s : Scope) (v : Nat) (o : OpId) : Prop :=
  ∃ x, s.vertices[v]? = some x ∧ x.owner = some o

theorem Scope.IsOf.unique (h : s.IsOf v o) (h' : s.IsOf v z) : o = z := by
  obtain ⟨x, hx, hxo⟩ := h
  obtain ⟨y, hy, hyz⟩ := h'
  obtain rfl := Option.some.inj (hx.symm.trans hy)
  exact Option.some.inj (hxo.symm.trans hyz)

theorem Drawn.isOf {ops pre post : List OpId} (h : Drawn p c path kind call ops s)
    (hops : ops = pre ++ o :: post) (hle : p.place kind pre ≤ v)
    (hlt : v < p.place kind (pre ++ [o])) : s.IsOf v o := by
  obtain ⟨i, rfl⟩ := Nat.exists_eq_add_of_le hle
  rw [place_append_singleton, Nat.add_lt_add_iff_left] at hlt
  have hevent := List.getElem?_eq_getElem hlt
  have hlayout := (getElem?_layout_iff (by rw [place]; omega)).2
    ⟨pre, o, post, i, hops, rfl, hevent⟩
  rw [← h.vertices, List.getElem?_map] at hlayout
  obtain ⟨x, hx, hxe⟩ := Option.map_eq_some_iff.1 hlayout
  exact ⟨x, hx, (congrArg Event.owner hxe).trans (owner_of_mem_events (List.getElem_mem hlt))⟩

theorem Drawn.isOf_of_op? {ops : List OpId} (h : Drawn p c path kind call ops s)
    (ho : s.op? v = some o) : s.IsOf v o := by
  obtain ⟨hhappens, pre, post, hops, rfl⟩ := h.op?_eq_some ho
  refine h.isOf hops (Nat.le_refl _) ?_
  obtain ⟨_, _, rest, hevents, -⟩ := events_eq_cons kind hhappens
  rw [place_append_singleton, hevents, List.length_cons]
  omega

theorem Drawn.op?_place (h : Drawn p c path kind call ops s) (hops : ops = pre ++ o :: post)
    (ho : p.happens o = true) : s.op? (p.place kind pre) = some o := by
  obtain ⟨a, b, ha, -, -, -⟩ := h.ends pre o post hops ho
  have hevent : (p.layout kind ops)[p.place kind pre]? = some a.event := by
    rw [← h.vertices, List.getElem?_map, ha, Option.map_some]
  have hpos : p.place kind pre ≠ 0 := by
    rw [place]
    omega
  obtain ⟨vertex, label, rest, hevents, -⟩ := events_eq_cons kind ho
  have hfirst : (p.layout kind ops)[p.place kind pre]? = some ⟨vertex, label, some o, some o⟩ :=
    (getElem?_layout_iff hpos).2 ⟨pre, o, post, 0, hops, rfl, by rw [hevents]; rfl⟩
  rw [Scope.op?, ha, Option.bind_some]
  exact congrArg Event.op (Option.some.inj (hevent.symm.trans hfirst))

theorem Drawn.ne_start (h : Drawn p c path kind call ops s) (ho : s.op? v = some o) :
    v ≠ Scope.start := by
  obtain ⟨-, pre, post, -, rfl⟩ := h.op?_eq_some ho
  rw [place, Scope.start]
  omega

/-- The terminator is the vertex of an operation that does not wait. -/
theorem Drawn.ne_terminator (h : Drawn p c path kind call ops s) (ho : s.op? v = some o)
    (hasync : (p.kind o).isAsync = true) : s.terminator ≠ some v := by
  intro hv
  obtain ⟨pre, y, post, hops, hkind, rfl⟩ := h.terminator v hv
  have hy := h.op?_place hops (by simp [happens, hkind])
  obtain rfl := Option.some.inj (ho.symm.trans hy)
  rw [hkind] at hasync
  cases hasync

/-- An operation has its entry at its vertex. -/
theorem Drawn.entry_of_op? (h : Drawn p c path kind call ops s) (hv : s.op? v = some o) :
    ∃ key, c.entry? o = some key ∧ c.lookup? key = some (path, v) := by
  obtain ⟨hhappens, pre, post, hops, rfl⟩ := h.op?_eq_some hv
  obtain ⟨a, b, ha, -, hentry, -⟩ := h.ends pre o post hops hhappens
  exact ⟨a.key, hentry, h.places _ a ha⟩

/-- An operation has one vertex in all. -/
theorem Drawn.op?_inj {kind' : ScopeKind} {call' : Option OpId} {ops' : List OpId}
    (h : Drawn p c path kind call ops s) (h' : Drawn p c path' kind' call' ops' s')
    (hu : s.op? u = some o) (hv : s'.op? v = some o) : path = path' ∧ u = v := by
  obtain ⟨key, hentry, hlook⟩ := h.entry_of_op? hu
  obtain ⟨key', hentry', hlook'⟩ := h'.entry_of_op? hv
  obtain rfl := Option.some.inj (hentry.symm.trans hentry')
  exact Prod.mk.inj (Option.some.inj (hlook.symm.trans hlook'))

/-- Every asynchronous operation is the operation of a vertex. -/
theorem Laid.exists_vertex (hp : p.WellFormed) (ht : Laid p c [] none (p.funcs.map (·.body)) t)
    (ho : o.index < p.ops.size) (hasync : (p.kind o).isAsync = true) :
    ∃ path s v, t.get? path = some s ∧ s.op? v = some o := by
  have hprim : (p.kind o).isComputePrimitive = false := by
    cases hk : p.kind o <;> simp_all [OpKind.isAsync, OpKind.isComputePrimitive]
  rcases ht.covers hp ho with ⟨path, call, blocks, t', hat, -, hlaid, hmem⟩ | h
  · obtain ⟨drawn, -, -, -⟩ := hlaid
    obtain ⟨pre, post, hops⟩ := List.append_of_mem hmem
    exact ⟨path, _, _, Tree.get?_of_at? hat, drawn.op?_place hops (by simp [happens, hasync])⟩
  · rw [hprim] at h
    cases h

end AsyncOrder
