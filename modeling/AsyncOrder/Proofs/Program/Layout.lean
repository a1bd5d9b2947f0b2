import AsyncOrder.Proofs.Program.Arena
import AsyncOrder.Lowering.Basic

/-!
# Layouts

The types of operands, dependencies, results and bodies that an operation of each kind has.  A
body is known by its signature: the types of its arguments and of what its terminator yields.
-/

namespace AsyncOrder

theorem ValueType.isToken_iff {t : ValueType} : t.isToken = true ↔ t = .token := by
  cases t <;> simp [isToken]

structure Signature where
  args : List ValueType
  yields : List ValueType

/-- A buffer, and for each of its dimensions an offset or none at all. -/
def IsAccess (base : ValueType) (offsets : List ValueType) : Prop :=
  base.isMemref = true ∧ (∀ t ∈ offsets, t = .index) ∧
    (offsets = [] ∨ base.rank? = some offsets.length)

namespace OpKind

open ValueType in
/-- Operands, results and bodies of an operation. -/
def Shape (operands results : List ValueType) (bodies : List Signature) : OpKind → Prop
  | const _ => operands = [] ∧ results = [index] ∧ bodies = []
  | alloc => operands = [] ∧ (∃ t, t.isMemref = true ∧ results = [t]) ∧ bodies = []
  | dealloc => (∃ t, t.isMemref = true ∧ operands = [t]) ∧ results = [] ∧ bodies = []
  | copy =>
    (∃ s t, s.isMemref = true ∧ t.isMemref = true ∧ operands = [s, t]) ∧ results = [] ∧ bodies = []
  | transform ins => ins ≤ operands.length ∧ results = [] ∧ bodies = []
  | muli | addi => operands = [index, index] ∧ results = [index] ∧ bodies = []
  | apply => (∀ t ∈ operands, t = index) ∧ results = [index] ∧ bodies = []
  | yield => results = [] ∧ bodies = []
  | finish => operands = [] ∧ results = [] ∧ bodies = []
  | compute => operands = [] ∧ ∃ body, bodies = [body] ∧ body.args = [] ∧
      results = token :: body.yields
  | transfer dstOffsets => (∃ dst src atDst atSrc, operands = dst :: src :: atDst ++ atSrc ∧
      atDst.length = dstOffsets ∧ IsAccess dst atDst ∧ IsAccess src atSrc) ∧
      results = [token] ∧ bodies = []
  | put _ | get _ => (∃ base offsets, operands = base :: offsets ∧ IsAccess base offsets) ∧
      results = [token] ∧ bodies = []
  | join => operands = [] ∧ results = [token] ∧ bodies = []
  | loop _ => ∃ body, bodies = [body] ∧ operands = [index, index, index] ++ results ∧
      body.args = index :: results
  | branch => operands = [index] ∧ ∃ body other, bodies = [body, other] ∧ body.args = [] ∧
      other.args = [] ∧ body.yields = results ∧ other.yields = results
  | hierarchy _ ids => results = [token] ∧ token ∉ operands ∧
      ∃ body, bodies = [body] ∧ body.args = List.replicate ids index ++ operands

/-- Only asynchronous operations wait, and only on tokens. -/
def Layout (kind : OpKind) (operands deps results : List ValueType) (bodies : List Signature) :
    Prop :=
  (kind.isAsync = false → deps = []) ∧ (∀ t ∈ deps, t = .token) ∧ kind.Shape operands results bodies

end OpKind

namespace Program

variable (p : Program)

/-- What a body is lowered to take and give. -/
def signature (b : BlockId) : Signature where
  args := (p.block b).args.map p.valueType
  yields := ((p.terminator? b).map fun y => (p.op y).operands.map p.valueType).getD []

/-- The operation has the layout of its kind. -/
def LaidOut (o : OpId) : Prop :=
  (p.kind o).Layout ((p.op o).operands.map p.valueType) ((p.op o).deps.map p.valueType)
    ((p.op o).results.map p.valueType) ((p.op o).regions.map p.signature)

/-- Operands and dependencies of an operation. -/
def used (o : OpId) : List ValueId := (p.op o).operands ++ (p.op o).deps

/-! ## Growth -/

/-- What an operation is made of stays as it is when the program grows. -/
structure Grows (p q : Program) : Prop where
  size_ops : p.ops.size ≤ q.ops.size
  size_values : p.values.size ≤ q.values.size
  size_blocks : p.blocks.size ≤ q.blocks.size
  op : ∀ o, o.index < p.ops.size → q.op o = p.op o
  value : ∀ v, v.index < p.values.size → q.value v = p.value v
  owned : ∀ b z, (p.block b).parentOp = some z → q.block b = p.block b
  args : ∀ b, b.index < p.blocks.size → (q.block b).args = (p.block b).args

variable {p} {q : Program}

theorem Grows.refl (p : Program) : p.Grows p :=
  ⟨Nat.le_refl _, Nat.le_refl _, Nat.le_refl _, fun _ _ => rfl, fun _ _ => rfl, fun _ _ _ => rfl,
    fun _ _ => rfl⟩

theorem Grows.trans {r : Program} (h : p.Grows q) (h' : q.Grows r) : p.Grows r where
  size_ops := Nat.le_trans h.size_ops h'.size_ops
  size_values := Nat.le_trans h.size_values h'.size_values
  size_blocks := Nat.le_trans h.size_blocks h'.size_blocks
  op o ho := (h'.op o (Nat.lt_of_lt_of_le ho h.size_ops)).trans (h.op o ho)
  value v hv := (h'.value v (Nat.lt_of_lt_of_le hv h.size_values)).trans (h.value v hv)
  owned b z hz := (h'.owned b z (by rw [h.owned b z hz]; exact hz)).trans (h.owned b z hz)
  args b hb := (h'.args b (Nat.lt_of_lt_of_le hb h.size_blocks)).trans (h.args b hb)

theorem grows_addBlock (args : List (Option String × ValueType)) :
    p.Grows (p.addBlock args).2 where
  size_ops := Nat.le_refl _
  size_values := by simp
  size_blocks := by simp
  op o _ := rfl
  value v hv := by rw [value_addBlock, value_addValues_of_lt p _ _ hv]
  owned b z hz := by rw [block_addBlock, if_neg (Nat.ne_of_lt (Linked.block_lt_of_owner hz))]
  args b hb := by rw [block_addBlock, if_neg (Nat.ne_of_lt hb)]

theorem grows_addFunc (name : String) (args : List (Option String × ValueType)) :
    p.Grows (p.addFunc name args).2 :=
  let h := grows_addBlock (p := p) args
  ⟨h.size_ops, h.size_values, h.size_blocks, h.op, h.value, h.owned, h.args⟩

theorem Free.grows {b : BlockId} {spec : OpSpec} (hfree : p.Free b spec.regions) :
    p.Grows (p.appendOp b spec).2 where
  size_ops := by simp
  size_values := by simp
  size_blocks := by simp
  op o ho := by rw [op_appendOp, if_neg (Nat.ne_of_lt ho)]
  value v hv := by rw [value_appendOp, value_addValues_of_lt p _ _ hv]
  owned c z hz := by
    have hbc : b ≠ c := fun h => by simp [← h, hfree.block_owner] at hz
    have hcr : c ∉ spec.regions := fun h => by simp [hfree.region_owner c h] at hz
    rw [hfree.block_appendOp, if_neg hbc, if_neg hcr]
  args c hc := by rw [hfree.block_appendOp]

namespace Grows

variable (h : p.Grows q)
include h

theorem map_valueType {vs : List ValueId} (hvs : ∀ v ∈ vs, v.index < p.values.size) :
    vs.map q.valueType = vs.map p.valueType :=
  List.map_congr_left fun v hv => congrArg Value.type (h.value v (hvs v hv))

theorem kind_eq {o : OpId} (ho : o.index < p.ops.size) : q.kind o = p.kind o :=
  congrArg Operation.kind (h.op o ho)

variable (hp : p.Linked)
include hp

theorem terminator?_eq {b : BlockId} (hops : (q.block b).ops = (p.block b).ops) :
    q.terminator? b = p.terminator? b := by
  rw [terminator?, terminator?, hops]
  cases hlast : (p.block b).ops.getLast? with
  | none => rfl
  | some y =>
    have hy := hp.size_of_mem_ops (List.mem_of_getLast? hlast)
    simp only [Option.filter_some, h.kind_eq hy]

variable (huses : ∀ o, o.index < p.ops.size → ∀ v ∈ p.used o, v.index < p.values.size)
include huses

theorem signature_eq {b : BlockId} (hb : b.index < p.blocks.size)
    (hops : (q.block b).ops = (p.block b).ops) : q.signature b = p.signature b := by
  have hargs : (q.block b).args.map q.valueType = (p.block b).args.map p.valueType := by
    rw [h.args b hb]
    exact h.map_valueType fun v hv => hp.arg_lt hv
  rw [signature, signature, hargs, h.terminator?_eq hp hops]
  cases hy : p.terminator? b with
  | none => rfl
  | some y =>
    have hlt : y.index < p.ops.size :=
      hp.size_of_mem_ops (List.mem_of_getLast? (Option.eq_some_of_filter_eq_some hy))
    rw [Option.map_some, Option.map_some, h.op y hlt]
    rw [h.map_valueType fun v hv => huses y hlt v (List.mem_append_left _ hv)]

theorem laidOut {o : OpId} (ho : o.index < p.ops.size) (hl : p.LaidOut o) : q.LaidOut o := by
  have hregions : (p.op o).regions.map q.signature = (p.op o).regions.map p.signature := by
    refine List.map_congr_left fun b hb => ?_
    have howner := (hp.mem_regions o b).1 hb
    exact h.signature_eq hp huses (Linked.block_lt_of_owner howner)
      (congrArg Block.ops (h.owned b o howner))
  rw [LaidOut, h.kind_eq ho, h.op o ho, hregions]
  rw [h.map_valueType fun v hv => huses o ho v (List.mem_append_left _ hv)]
  rw [h.map_valueType fun v hv => huses o ho v (List.mem_append_right _ hv)]
  rwa [h.map_valueType fun v hv => hp.result_lt hv]

end Grows

end Program

end AsyncOrder
