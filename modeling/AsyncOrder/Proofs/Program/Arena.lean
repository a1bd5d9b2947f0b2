import AsyncOrder.Proofs.Program.Growth

/-!
# Linked arenas

In a linked arena the tables agree with one another: blocks list the operations that name them
as parent, regions and owners point at each other, values know where they come from.  Nested
operations come before the operation in whose region they lie, so an operation never lies in
itself:

    o ∈ (p.block b).ops ∧ (p.block b).parentOp = some z → o.index < z.index

Programs grow by new blocks and by operations that take blocks without owner as regions; both
keep the arena linked.
-/

namespace AsyncOrder.Program

structure Linked (p : Program) : Prop where
  live : ∀ o, o.index < p.ops.size → (p.op o).erased = false
  mem_ops : ∀ b o, o ∈ (p.block b).ops ↔ o.index < p.ops.size ∧ (p.op o).parent = b
  sorted : ∀ b, (p.block b).ops.Pairwise fun o z => o.index < z.index
  mem_regions : ∀ o b, b ∈ (p.op o).regions ↔ (p.block b).parentOp = some o
  nodup_regions : ∀ o, (p.op o).regions.Nodup
  nested : ∀ b o z, (p.block b).parentOp = some z → o ∈ (p.block b).ops → o.index < z.index
  results : ∀ o i v, (p.op o).results[i]? = some v ↔
    v.index < p.values.size ∧ (p.value v).origin = .result o i
  args : ∀ b i v, (p.block b).args[i]? = some v ↔
    v.index < p.values.size ∧ (p.value v).origin = .arg b i

theorem linked_empty : Program.empty.Linked where
  live o h := by simp [empty] at h
  mem_ops b o := by simp [empty, block]
  sorted b := by simp [empty, block]
  mem_regions o b := by simp [empty, block, op]
  nodup_regions o := by simp [empty, op]
  nested b o z := by simp [empty, block]
  results o i v := by simp [empty, op]
  args b i v := by simp [empty, block]

theorem lt_of_isLive {p : Program} {o : OpId} (h : p.isLive o = true) : o.index < p.ops.size := by
  by_contra hle
  rw [isLive, op_of_size_le (Nat.le_of_not_lt hle)] at h
  cases h

namespace Linked

variable {p : Program} {o z : OpId} {b : BlockId} {v : ValueId}

/-! ## Ranges -/

theorem size_of_mem_ops (hp : p.Linked) (h : o ∈ (p.block b).ops) : o.index < p.ops.size :=
  ((hp.mem_ops b o).1 h).1

theorem parent_of_mem_ops (hp : p.Linked) (h : o ∈ (p.block b).ops) : (p.op o).parent = b :=
  ((hp.mem_ops b o).1 h).2

theorem mem_ops_parent (hp : p.Linked) (h : o.index < p.ops.size) :
    o ∈ (p.block (p.op o).parent).ops :=
  (hp.mem_ops _ o).2 ⟨h, rfl⟩

theorem parent_lt (hp : p.Linked) (h : o.index < p.ops.size) :
    (p.op o).parent.index < p.blocks.size := by
  by_contra hle
  have hmem := hp.mem_ops_parent h
  rw [block_of_size_le (Nat.le_of_not_lt hle)] at hmem
  exact List.not_mem_nil hmem

theorem owner_lt (hp : p.Linked) (h : (p.block b).parentOp = some z) :
    z.index < p.ops.size := by
  by_contra hle
  have hmem := (hp.mem_regions z b).2 h
  rw [op_of_size_le (Nat.le_of_not_lt hle)] at hmem
  exact List.not_mem_nil hmem

theorem block_lt_of_owner (h : (p.block b).parentOp = some z) : b.index < p.blocks.size := by
  by_contra hle
  rw [block_of_size_le (Nat.le_of_not_lt hle)] at h
  simp at h

theorem result_lt (hp : p.Linked) (h : v ∈ (p.op o).results) : v.index < p.values.size := by
  obtain ⟨i, hi⟩ := List.mem_iff_getElem?.1 h
  exact ((hp.results o i v).1 hi).1

theorem arg_lt (hp : p.Linked) (h : v ∈ (p.block b).args) : v.index < p.values.size := by
  obtain ⟨i, hi⟩ := List.mem_iff_getElem?.1 h
  exact ((hp.args b i v).1 hi).1

theorem nodup_ops (hp : p.Linked) (b : BlockId) : (p.block b).ops.Nodup :=
  (hp.sorted b).imp fun {o z} (h : o.index < z.index) heq => Nat.lt_irrefl _ (heq ▸ h)

theorem nodup_args (hp : p.Linked) (b : BlockId) : (p.block b).args.Nodup := by
  refine List.pairwise_iff_getElem.2 fun i j hi hj hlt heq => ?_
  have hplace := ((hp.args b i _).1 (List.getElem?_eq_getElem hi)).2
  rw [heq, ((hp.args b j _).1 (List.getElem?_eq_getElem hj)).2] at hplace
  exact Nat.ne_of_gt hlt (Origin.arg.inj hplace).2

theorem nodup_results (hp : p.Linked) (o : OpId) : (p.op o).results.Nodup := by
  refine List.pairwise_iff_getElem.2 fun i j hi hj hlt heq => ?_
  have hplace := ((hp.results o i _).1 (List.getElem?_eq_getElem hi)).2
  rw [heq, ((hp.results o j _).1 (List.getElem?_eq_getElem hj)).2] at hplace
  exact Nat.ne_of_gt hlt (Origin.result.inj hplace).2

theorem exists_origin_of_result (hp : p.Linked) (h : v ∈ (p.op o).results) :
    ∃ i, (p.value v).origin = .result o i := by
  obtain ⟨i, hi⟩ := List.mem_iff_getElem?.1 h
  exact ⟨i, ((hp.results o i v).1 hi).2⟩

theorem exists_origin_of_arg (hp : p.Linked) (h : v ∈ (p.block b).args) :
    ∃ i, (p.value v).origin = .arg b i := by
  obtain ⟨i, hi⟩ := List.mem_iff_getElem?.1 h
  exact ⟨i, ((hp.args b i v).1 hi).2⟩

theorem isLive (hp : p.Linked) (ho : o.index < p.ops.size) : p.isLive o = true := by
  rw [Program.isLive, hp.live o ho]
  rfl

/-! ## New blocks -/

theorem addBlock (hp : p.Linked) (args : List (Option String × ValueType)) :
    (p.addBlock args).2.Linked := by
  have hblock : ∀ c : BlockId, c.index ≠ p.blocks.size → (p.addBlock args).2.block c = p.block c :=
    fun c hc => by rw [block_addBlock, if_neg hc]
  have hnew : ∀ c : BlockId, c.index = p.blocks.size → (p.addBlock args).2.block c =
      ⟨(p.addValues (.arg ⟨p.blocks.size⟩) args).1, [], none⟩ :=
    fun c hc => by rw [block_addBlock, if_pos hc]
  have hfree : ∀ c : BlockId, c.index = p.blocks.size → p.block c = ⟨[], [], none⟩ :=
    fun c hc => block_of_size_le (Nat.le_of_eq hc.symm)
  constructor
  case live => exact hp.live
  case mem_ops =>
    intro c o
    rw [op_addBlock, ops_addBlock, ← hp.mem_ops c o]
    by_cases hc : c.index = p.blocks.size
    · rw [hnew c hc, hfree c hc]
    · rw [hblock c hc]
  case sorted =>
    intro c
    by_cases hc : c.index = p.blocks.size
    · rw [hnew c hc]
      exact List.Pairwise.nil
    · rw [hblock c hc]
      exact hp.sorted c
  case mem_regions =>
    intro o c
    rw [op_addBlock, hp.mem_regions o c]
    by_cases hc : c.index = p.blocks.size
    · rw [hnew c hc, hfree c hc]
    · rw [hblock c hc]
  case nodup_regions => exact hp.nodup_regions
  case nested =>
    intro c o z hz ho
    by_cases hc : c.index = p.blocks.size
    · rw [hnew c hc] at ho
      exact absurd ho List.not_mem_nil
    · rw [hblock c hc] at hz ho
      exact hp.nested c o z hz ho
  case results =>
    intro o i v
    rw [op_addBlock, hp.results o i v]
    refine Iff.trans ?_ (origin_addValues_iff p (.arg ⟨p.blocks.size⟩) args).symm
    simp
  case args =>
    intro c i v
    refine Iff.trans ?_ (origin_addValues_iff p (.arg ⟨p.blocks.size⟩) args).symm
    rw [← hp.args c i v]
    obtain ⟨c⟩ := c
    simp only [Origin.arg.injEq, BlockId.mk.injEq]
    by_cases hc : c = p.blocks.size
    · rw [hnew _ hc, hfree _ hc]
      simp [hc]
    · rw [hblock _ hc]
      simp [Ne.symm hc]

theorem addFunc (hp : p.Linked) (name : String) (args : List (Option String × ValueType)) :
    (p.addFunc name args).2.Linked :=
  let h := hp.addBlock args
  ⟨h.live, h.mem_ops, h.sorted, h.mem_regions, h.nodup_regions, h.nested, h.results, h.args⟩

end Linked

/-! ## New operations -/

/-- Blocks that can become the regions of an operation in `b`. -/
structure Free (p : Program) (b : BlockId) (regions : List BlockId) : Prop where
  block_lt : b.index < p.blocks.size
  block_owner : (p.block b).parentOp = none
  nodup : regions.Nodup
  region_lt : ∀ r ∈ regions, r.index < p.blocks.size
  region_owner : ∀ r ∈ regions, (p.block r).parentOp = none
  block_notMem : b ∉ regions

section appendOp

variable {p : Program} {b : BlockId} {spec : OpSpec} (hfree : p.Free b spec.regions)
include hfree

theorem Free.block_appendOp (c : BlockId) :
    (p.appendOp b spec).2.block c =
      ⟨(p.block c).args, if b = c then (p.block c).ops ++ [⟨p.ops.size⟩] else (p.block c).ops,
        if c ∈ spec.regions then some ⟨p.ops.size⟩ else (p.block c).parentOp⟩ := by
  by_cases hc : c.index < p.blocks.size
  · exact Program.block_appendOp p b spec hc
  · have hbc : b ≠ c := fun h => hc (h ▸ hfree.block_lt)
    have hcr : c ∉ spec.regions := fun h => hc (hfree.region_lt c h)
    rw [block_of_size_le (by simpa using hc), if_neg hbc, if_neg hcr]
    rw [block_of_size_le (Nat.le_of_not_lt hc)]

theorem Free.parentOp_appendOp_iff (c : BlockId) (z : OpId) :
    ((p.appendOp b spec).2.block c).parentOp = some z ↔
      (p.block c).parentOp = some z ∨ (c ∈ spec.regions ∧ z = ⟨p.ops.size⟩) := by
  rw [hfree.block_appendOp]
  by_cases hc : c ∈ spec.regions
  · simp [hc, hfree.region_owner c hc, eq_comm]
  · simp [hc]

theorem Free.mem_ops_appendOp_iff (c : BlockId) (o : OpId) :
    o ∈ ((p.appendOp b spec).2.block c).ops ↔
      o ∈ (p.block c).ops ∨ (b = c ∧ o = ⟨p.ops.size⟩) := by
  rw [hfree.block_appendOp]
  by_cases hc : b = c
  · simp [hc]
  · simp [hc]

theorem Linked.appendOp (hp : p.Linked) : (p.appendOp b spec).2.Linked := by
  have hold : ∀ o : OpId, o.index ≠ p.ops.size → (p.appendOp b spec).2.op o = p.op o :=
    fun o ho => by rw [op_appendOp, if_neg ho]
  have hnew : (p.appendOp b spec).2.op ⟨p.ops.size⟩ = p.newOp b spec := by
    rw [op_appendOp, if_pos rfl]
  have hat : ∀ o : OpId, o.index = p.ops.size → o = ⟨p.ops.size⟩ := fun o ho => by
    obtain ⟨i⟩ := o
    exact congrArg OpId.mk ho
  constructor
  case live =>
    intro o ho
    rw [size_ops_appendOp] at ho
    by_cases h : o.index = p.ops.size
    · rw [hat o h, hnew]
      rfl
    · rw [hold o h]
      exact hp.live o (by omega)
  case mem_ops =>
    intro c o
    rw [hfree.mem_ops_appendOp_iff, size_ops_appendOp, hp.mem_ops c o]
    by_cases h : o.index = p.ops.size
    · rw [hat o h, hnew]
      simp [newOp]
    · rw [hold o h]
      constructor
      · rintro (⟨hlt, hpar⟩ | ⟨-, rfl⟩)
        · exact ⟨by omega, hpar⟩
        · exact absurd rfl h
      · rintro ⟨hlt, hpar⟩
        exact Or.inl ⟨by omega, hpar⟩
  case sorted =>
    intro c
    rw [hfree.block_appendOp]
    split
    · refine List.pairwise_append.2 ⟨hp.sorted c, by simp, fun o ho z hz => ?_⟩
      rw [List.mem_singleton.1 hz]
      exact hp.size_of_mem_ops ho
    · exact hp.sorted c
  case mem_regions =>
    intro o c
    rw [hfree.parentOp_appendOp_iff]
    by_cases h : o.index = p.ops.size
    · rw [hat o h, hnew]
      have hnone : (p.block c).parentOp ≠ some ⟨p.ops.size⟩ := fun hz =>
        Nat.lt_irrefl _ (hp.owner_lt hz)
      simp [newOp, hnone]
    · rw [hold o h, hp.mem_regions o c]
      constructor
      · exact Or.inl
      · rintro (hz | ⟨-, rfl⟩)
        · exact hz
        · exact absurd rfl h
  case nodup_regions =>
    intro o
    by_cases h : o.index = p.ops.size
    · rw [hat o h, hnew]
      exact hfree.nodup
    · rw [hold o h]
      exact hp.nodup_regions o
  case nested =>
    intro c o z hz ho
    rcases (hfree.parentOp_appendOp_iff c z).1 hz with hz | ⟨hc, rfl⟩ <;>
      rcases (hfree.mem_ops_appendOp_iff c o).1 ho with ho | ⟨rfl, rfl⟩
    · exact hp.nested c o z hz ho
    · rw [hfree.block_owner] at hz
      simp at hz
    · exact hp.size_of_mem_ops ho
    · exact absurd hc hfree.block_notMem
  case results =>
    intro o i v
    rw [value_appendOp, (p.appendOp_fields b spec).2.1]
    refine Iff.trans ?_ (origin_addValues_iff p (.result ⟨p.ops.size⟩) spec.results).symm
    rw [← hp.results o i v]
    by_cases h : o.index = p.ops.size
    · rw [hat o h, hnew, op_of_size_le (p := p) (o := ⟨p.ops.size⟩) (Nat.le_refl _)]
      simp [newOp, newResults]
    · rw [hold o h]
      have : (⟨p.ops.size⟩ : OpId) ≠ o := fun heq => h (heq ▸ rfl)
      simp [this]
  case args =>
    intro c i v
    rw [value_appendOp, (p.appendOp_fields b spec).2.1]
    refine Iff.trans ?_ (origin_addValues_iff p (.result ⟨p.ops.size⟩) spec.results).symm
    rw [← hp.args c i v, hfree.block_appendOp]
    simp

end appendOp

end AsyncOrder.Program
