import AsyncOrder.Program.Query
import Mathlib.Data.List.Basic

/-!
# What additions change

Adding a block or an operation leaves the entities that are there as they are, but for the block
that takes the operation and the regions that get an owner:

    (p.addBlock args).2      one block more, listing nothing
    (p.appendOp b spec).2    one operation more, listed last in b, owner of spec.regions
-/

namespace AsyncOrder

@[simp]
theorem OpId.mk_index (o : OpId) : (⟨o.index⟩ : OpId) = o := rfl

namespace Program

variable (p : Program)

/-! ## Entities by index -/

theorem op_eq_getElem {p : Program} {o : OpId} (h : o.index < p.ops.size) :
    p.op o = p.ops[o.index] := by
  rw [op, Array.getElem?_eq_getElem h, Option.getD_some]

theorem op_of_size_le {p : Program} {o : OpId} (h : p.ops.size ≤ o.index) :
    p.op o = ⟨.finish, [], [], [], [], ⟨0⟩, none, true⟩ := by
  rw [op, Array.getElem?_eq_none h, Option.getD_none]

theorem block_of_size_le {p : Program} {b : BlockId} (h : p.blocks.size ≤ b.index) :
    p.block b = ⟨[], [], none⟩ := by
  rw [block, Array.getElem?_eq_none h, Option.getD_none]

/-! ## Changing one block -/

@[simp]
theorem op_modifyBlock (b : BlockId) (f : Block → Block) (o : OpId) :
    (p.modifyBlock b f).op o = p.op o := rfl

@[simp]
theorem value_modifyBlock (b : BlockId) (f : Block → Block) (v : ValueId) :
    (p.modifyBlock b f).value v = p.value v := rfl

theorem block_modifyBlock (b c : BlockId) (f : Block → Block) :
    (p.modifyBlock b f).block c =
      if b = c ∧ c.index < p.blocks.size then f (p.block c) else p.block c := by
  obtain ⟨i⟩ := b
  obtain ⟨j⟩ := c
  simp only [block, modifyBlock, Array.getElem?_modify, BlockId.mk.injEq]
  by_cases hij : i = j
  · subst hij
    by_cases hi : i < p.blocks.size
    · simp [hi]
    · simp [hi]
  · simp [hij]

/-! ## Values -/

section addValues

variable (origin : Nat → Origin) (specs : List (Option String × ValueType))

@[simp]
theorem ops_addValues : (p.addValues origin specs).2.ops = p.ops := rfl

@[simp]
theorem blocks_addValues : (p.addValues origin specs).2.blocks = p.blocks := rfl

@[simp]
theorem funcs_addValues : (p.addValues origin specs).2.funcs = p.funcs := rfl

@[simp]
theorem size_values_addValues :
    (p.addValues origin specs).2.values.size = p.values.size + specs.length := by
  simp [addValues]

theorem value_addValues_of_lt {v : ValueId} (hv : v.index < p.values.size) :
    (p.addValues origin specs).2.value v = p.value v := by
  simp [value, addValues, Array.getElem?_append_left hv]

theorem value_addValues_add {i : Nat} {spec : Option String × ValueType}
    (h : specs[i]? = some spec) :
    (p.addValues origin specs).2.value ⟨p.values.size + i⟩ = ⟨spec.2, origin i, spec.1⟩ := by
  simp only [value, addValues]
  rw [Array.getElem?_append_right (by omega)]
  simp [h]

theorem getElem?_addValues (i : Nat) :
    (p.addValues origin specs).1[i]? =
      if i < specs.length then some ⟨p.values.size + i⟩ else none := by
  simp only [addValues, List.getElem?_map]
  split
  · next h => rw [List.getElem?_range' h]; simp
  · next h => rw [List.getElem?_eq_none (by simpa using h), Option.map_none]

/-- What does not depend on the origin of the new values. -/
theorem map_addValues {α : Type} {f : Value → α} {g : Option String × ValueType → α}
    (h : ∀ i spec, f ⟨spec.2, origin i, spec.1⟩ = g spec) :
    ((p.addValues origin specs).1.map fun v => f ((p.addValues origin specs).2.value v)) =
      specs.map g := by
  apply List.ext_getElem?
  intro i
  rw [List.getElem?_map, List.getElem?_map, getElem?_addValues]
  split
  · next hi =>
    rw [Option.map_some, value_addValues_add p _ _ (List.getElem?_eq_getElem hi)]
    rw [List.getElem?_eq_getElem hi, Option.map_some, h]
  · next hi => rw [List.getElem?_eq_none (Nat.le_of_not_lt hi), Option.map_none, Option.map_none]

theorem types_addValues :
    (p.addValues origin specs).1.map (p.addValues origin specs).2.valueType =
      specs.map (·.2) := map_addValues p origin specs fun _ _ => rfl

theorem names_addValues : ((p.addValues origin specs).1.map
    fun v => ((p.addValues origin specs).2.value v).name) = specs.map (·.1) :=
  map_addValues p origin specs fun _ _ => rfl

/-- The values of the grown program that have a given origin. -/
theorem origin_addValues_iff {v : ValueId} {place : Origin} :
    (v.index < (p.addValues origin specs).2.values.size ∧
        ((p.addValues origin specs).2.value v).origin = place) ↔
      (v.index < p.values.size ∧ (p.value v).origin = place) ∨
        ∃ i, (p.addValues origin specs).1[i]? = some v ∧ origin i = place := by
  obtain ⟨j⟩ := v
  simp only [size_values_addValues, getElem?_addValues]
  by_cases hj : j < p.values.size
  · rw [value_addValues_of_lt p origin specs hj]
    constructor
    · intro h
      exact Or.inl ⟨hj, h.2⟩
    · rintro (h | ⟨i, hi, -⟩)
      · exact ⟨by omega, h.2⟩
      · split at hi <;> simp at hi
        omega
  · constructor
    · rintro ⟨hlt, h⟩
      obtain ⟨i, rfl⟩ : ∃ i, j = p.values.size + i := ⟨j - p.values.size, by omega⟩
      have hi : i < specs.length := by omega
      rw [value_addValues_add p origin specs (List.getElem?_eq_getElem hi)] at h
      exact Or.inr ⟨i, if_pos hi, h⟩
    · rintro (h | ⟨i, hi, h⟩)
      · exact absurd h.1 hj
      · split at hi
        · next hlt =>
          obtain rfl : p.values.size + i = j := congrArg ValueId.index (Option.some.inj hi)
          rw [value_addValues_add p origin specs (List.getElem?_eq_getElem hlt)]
          exact ⟨by omega, h⟩
        · simp at hi

end addValues

/-! ## Blocks -/

section addBlock

variable (args : List (Option String × ValueType))

@[simp]
theorem index_addBlock : (p.addBlock args).1 = ⟨p.blocks.size⟩ := rfl

@[simp]
theorem ops_addBlock : (p.addBlock args).2.ops = p.ops := rfl

@[simp]
theorem op_addBlock (o : OpId) : (p.addBlock args).2.op o = p.op o := rfl

@[simp]
theorem funcs_addBlock : (p.addBlock args).2.funcs = p.funcs := rfl

@[simp]
theorem size_blocks_addBlock : (p.addBlock args).2.blocks.size = p.blocks.size + 1 := by
  simp [addBlock]

@[simp]
theorem size_values_addBlock :
    (p.addBlock args).2.values.size = p.values.size + args.length := by
  simp [addBlock]

theorem value_addBlock (v : ValueId) :
    (p.addBlock args).2.value v = (p.addValues (.arg ⟨p.blocks.size⟩) args).2.value v := rfl

theorem block_addBlock (b : BlockId) :
    (p.addBlock args).2.block b =
      if b.index = p.blocks.size then
        ⟨(p.addValues (.arg ⟨p.blocks.size⟩) args).1, [], none⟩
      else p.block b := by
  simp only [addBlock, block, Array.getElem?_push, blocks_addValues]
  split <;> rfl

theorem types_addBlock :
    ((p.addBlock args).2.block ⟨p.blocks.size⟩).args.map (p.addBlock args).2.valueType =
      args.map (·.2) := by
  rw [block_addBlock, if_pos rfl]
  exact types_addValues p (.arg ⟨p.blocks.size⟩) args

end addBlock

/-! ## Functions -/

section addFunc

variable (name : String) (args : List (Option String × ValueType))

@[simp]
theorem block_addFunc (b : BlockId) :
    (p.addFunc name args).2.block b = (p.addBlock args).2.block b := rfl

@[simp]
theorem op_addFunc (o : OpId) : (p.addFunc name args).2.op o = p.op o := rfl

@[simp]
theorem ops_addFunc : (p.addFunc name args).2.ops = p.ops := rfl

@[simp]
theorem value_addFunc (v : ValueId) :
    (p.addFunc name args).2.value v = (p.addBlock args).2.value v := rfl

@[simp]
theorem index_addFunc : (p.addFunc name args).1 = ⟨p.blocks.size⟩ := rfl

@[simp]
theorem funcs_addFunc :
    (p.addFunc name args).2.funcs = p.funcs ++ [⟨name, ⟨p.blocks.size⟩⟩] := rfl

@[simp]
theorem size_blocks_addFunc : (p.addFunc name args).2.blocks.size = p.blocks.size + 1 :=
  size_blocks_addBlock p args

@[simp]
theorem size_values_addFunc :
    (p.addFunc name args).2.values.size = p.values.size + args.length :=
  size_values_addBlock p args

end addFunc

/-! ## Operations -/

/-- Gives each of the regions an owner. -/
def own (regions : List BlockId) (o : OpId) : Program :=
  regions.foldl (fun p region => p.modifyBlock region fun b => { b with parentOp := some o }) p

section own

variable (regions : List BlockId) (o : OpId)

theorem own_fields : (p.own regions o).ops = p.ops ∧ (p.own regions o).values = p.values ∧
    (p.own regions o).funcs = p.funcs ∧ (p.own regions o).blocks.size = p.blocks.size := by
  induction regions generalizing p with
  | nil => exact ⟨rfl, rfl, rfl, rfl⟩
  | cons r rs ih =>
    obtain ⟨h₁, h₂, h₃, h₄⟩ := ih (p.modifyBlock r fun b => { b with parentOp := some o })
    refine ⟨h₁, h₂, h₃, h₄.trans ?_⟩
    simp [modifyBlock]

theorem block_own {b : BlockId} (hb : b.index < p.blocks.size) :
    (p.own regions o).block b =
      { p.block b with parentOp := if b ∈ regions then some o else (p.block b).parentOp } := by
  induction regions generalizing p with
  | nil => simp [own]
  | cons r rs ih =>
    rw [own, List.foldl_cons, ← own, ih _ (by simpa [modifyBlock] using hb), block_modifyBlock]
    by_cases hr : r = b
    · subst hr
      simp [hb]
    · simp [hr, Ne.symm hr]

end own

section appendOp

variable (b : BlockId) (spec : OpSpec)

/-- The values of an added operation's results. -/
def newResults : List ValueId := (p.addValues (.result ⟨p.ops.size⟩) spec.results).1

/-- An added operation. -/
def newOp : Operation :=
  ⟨spec.kind, spec.operands, spec.deps, p.newResults spec, spec.regions, b, spec.span, false⟩

@[simp]
theorem index_appendOp : (p.appendOp b spec).1 = ⟨p.ops.size⟩ := rfl

theorem appendOp_fields :
    (p.appendOp b spec).2.ops = p.ops.push (p.newOp b spec) ∧
    (p.appendOp b spec).2.values = (p.addValues (.result ⟨p.ops.size⟩) spec.results).2.values ∧
    (p.appendOp b spec).2.funcs = p.funcs ∧
    (p.appendOp b spec).2.blocks.size = p.blocks.size := by
  obtain ⟨h₁, h₂, h₃, h₄⟩ :=
    (p.addValues (.result ⟨p.ops.size⟩) spec.results).2.own_fields spec.regions ⟨p.ops.size⟩
  refine ⟨?_, h₂, h₃, ?_⟩
  · exact congrArg (fun ops => Array.push ops (p.newOp b spec)) h₁
  · refine Eq.trans ?_ h₄
    simp [appendOp, modifyBlock, own]

@[simp]
theorem size_ops_appendOp : (p.appendOp b spec).2.ops.size = p.ops.size + 1 := by
  simp [(p.appendOp_fields b spec).1]

@[simp]
theorem size_blocks_appendOp : (p.appendOp b spec).2.blocks.size = p.blocks.size :=
  (p.appendOp_fields b spec).2.2.2

@[simp]
theorem funcs_appendOp : (p.appendOp b spec).2.funcs = p.funcs := (p.appendOp_fields b spec).2.2.1

@[simp]
theorem size_values_appendOp :
    (p.appendOp b spec).2.values.size = p.values.size + spec.results.length := by
  rw [(p.appendOp_fields b spec).2.1, size_values_addValues]

theorem value_appendOp (v : ValueId) :
    (p.appendOp b spec).2.value v =
      (p.addValues (.result ⟨p.ops.size⟩) spec.results).2.value v := by
  rw [value, value, (p.appendOp_fields b spec).2.1]

theorem op_appendOp (o : OpId) :
    (p.appendOp b spec).2.op o = if o.index = p.ops.size then p.newOp b spec else p.op o := by
  rw [op, op, (p.appendOp_fields b spec).1, Array.getElem?_push]
  split <;> rfl

theorem types_newResults :
    (p.newResults spec).map (p.appendOp b spec).2.valueType = spec.results.map (·.2) := by
  rw [← types_addValues p (.result ⟨p.ops.size⟩) spec.results]
  refine List.map_congr_left fun v _ => ?_
  rw [valueType, valueType, value_appendOp]

theorem block_appendOp {c : BlockId} (hc : c.index < p.blocks.size) :
    (p.appendOp b spec).2.block c =
      ⟨(p.block c).args, if b = c then (p.block c).ops ++ [⟨p.ops.size⟩] else (p.block c).ops,
        if c ∈ spec.regions then some ⟨p.ops.size⟩ else (p.block c).parentOp⟩ := by
  have hown := (p.addValues (.result ⟨p.ops.size⟩) spec.results).2.block_own spec.regions
    ⟨p.ops.size⟩ (b := c) hc
  have hsize := ((p.addValues (.result ⟨p.ops.size⟩) spec.results).2.own_fields spec.regions
    ⟨p.ops.size⟩).2.2.2
  show Program.block (Program.modifyBlock _ b fun b => { b with ops := b.ops ++ [_] }) c = _
  rw [block_modifyBlock]
  have hc' : c.index < ((p.addValues (.result ⟨p.ops.size⟩) spec.results).2.own spec.regions
    ⟨p.ops.size⟩).blocks.size := hsize ▸ hc
  by_cases hbc : b = c
  · rw [if_pos ⟨hbc, hc'⟩, if_pos hbc]
    exact congrArg (fun x : Block => { x with ops := x.ops ++ [(⟨p.ops.size⟩ : OpId)] }) hown
  · rw [if_neg (fun h => hbc h.1), if_neg hbc]
    exact hown

end appendOp

end Program

end AsyncOrder
