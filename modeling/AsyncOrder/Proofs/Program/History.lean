import AsyncOrder.Proofs.Program.Naming
import AsyncOrder.Proofs.Program.Spelling
import AsyncOrder.Proofs.Program.Walks

/-!
# The order of creation

Reading the text of a program creates its entities anew: a block and its arguments when its body
is entered, an operation and its results when it has been read with all of its bodies.
`Program.history` lists the entities in that order.
-/

namespace AsyncOrder

inductive Entity where
  | op (o : OpId)
  | value (v : ValueId)
  | block (b : BlockId)
deriving DecidableEq, Repr

namespace Entity

def op? : Entity → Option OpId
  | op o => some o
  | _ => none

def value? : Entity → Option ValueId
  | value v => some v
  | _ => none

def block? : Entity → Option BlockId
  | block b => some b
  | _ => none

def ops (h : List Entity) : List OpId := h.filterMap op?

def values (h : List Entity) : List ValueId := h.filterMap value?

def blocks (h : List Entity) : List BlockId := h.filterMap block?

variable {h h' : List Entity} {o : OpId} {v : ValueId} {b : BlockId} {vs : List ValueId}

@[simp]
theorem mem_ops : o ∈ ops h ↔ .op o ∈ h := by
  refine List.mem_filterMap.trans ⟨?_, fun ho => ⟨_, ho, rfl⟩⟩
  rintro ⟨e, he, heq⟩
  cases e <;> cases heq
  exact he

@[simp]
theorem mem_values : v ∈ values h ↔ .value v ∈ h := by
  refine List.mem_filterMap.trans ⟨?_, fun ho => ⟨_, ho, rfl⟩⟩
  rintro ⟨e, he, heq⟩
  cases e <;> cases heq
  exact he

@[simp]
theorem mem_blocks : b ∈ blocks h ↔ .block b ∈ h := by
  refine List.mem_filterMap.trans ⟨?_, fun ho => ⟨_, ho, rfl⟩⟩
  rintro ⟨e, he, heq⟩
  cases e <;> cases heq
  exact he

theorem ops_append : ops (h ++ h') = ops h ++ ops h' := List.filterMap_append

theorem values_append : values (h ++ h') = values h ++ values h' := List.filterMap_append

theorem blocks_append : blocks (h ++ h') = blocks h ++ blocks h' := List.filterMap_append

theorem ops_values : ops (vs.map value) = [] := by
  rw [ops, List.filterMap_map, List.filterMap_eq_nil_iff]
  exact fun _ _ => rfl

theorem values_values : values (vs.map value) = vs := by
  rw [values, List.filterMap_map]
  exact List.filterMap_some

theorem blocks_values : blocks (vs.map value) = [] := by
  rw [blocks, List.filterMap_map, List.filterMap_eq_nil_iff]
  exact fun _ _ => rfl

/-- What an operation adds behind its bodies. -/
theorem lists_op (o : OpId) (vs : List ValueId) : ops (.op o :: vs.map value) = [o] ∧ values (.op o :: vs.map value) = vs ∧
    blocks (.op o :: vs.map value) = [] :=
  ⟨congrArg (o :: ·) ops_values, values_values, blocks_values⟩

/-- What a block adds before its operations. -/
theorem lists_block (b : BlockId) (vs : List ValueId) : ops (.block b :: vs.map value) = [] ∧
    values (.block b :: vs.map value) = vs ∧ blocks (.block b :: vs.map value) = [b] :=
  ⟨ops_values, values_values, congrArg (b :: ·) blocks_values⟩

end Entity

namespace Program

variable (p : Program)

/-- A block, its arguments and what its operations add. -/
def blockHistory (inner : OpId → List Entity) (b : BlockId) : List Entity :=
  .block b :: ((p.block b).args.map .value ++ (p.block b).ops.flatMap inner)

/-- The bodies of an operation, the operation and its results.  Goes `depth` levels deep. -/
def opHistory : (depth : Nat) → OpId → List Entity
  | 0, _ => []
  | depth + 1, o => (p.op o).regions.flatMap (p.blockHistory (opHistory depth)) ++
      .op o :: (p.op o).results.map .value

/-- Deep enough for any program, since a body has a greater number than the block around it. -/
def history : List Entity :=
  p.funcs.flatMap fun f => p.blockHistory (p.opHistory (p.blocks.size + 1)) f.body

variable {p} {q : Program} {o x : OpId} {b : BlockId} {depth depth' : Nat} {ops ops' : List OpId}

theorem op_mem_blockHistory {inner : OpId → List Entity} :
    .op x ∈ p.blockHistory inner b ↔ ∃ z ∈ (p.block b).ops, .op x ∈ inner z := by
  simp [blockHistory]

theorem op_mem_opHistory : .op x ∈ p.opHistory (depth + 1) o ↔
    (∃ b ∈ (p.op o).regions, .op x ∈ p.blockHistory (p.opHistory depth) b) ∨ x = o := by
  simp [opHistory]

/-! ## Depth -/

theorem shallow_append :
    p.Shallow depth (ops ++ ops') ↔ p.Shallow depth ops ∧ p.Shallow depth ops' := by
  cases depth with
  | zero => exact List.append_eq_nil_iff
  | succ depth => exact List.forall_mem_append

theorem shallow_flatMap {blocks : List BlockId} :
    p.Shallow depth (p.blocksOps blocks) ↔ ∀ b ∈ blocks, p.Shallow depth (p.block b).ops := by
  induction blocks with
  | nil => exact iff_of_true (p.shallow_nil depth) nofun
  | cons b blocks ih =>
    rw [blocksOps, List.flatMap_cons, shallow_append, List.forall_mem_cons]
    exact and_congr_right fun _ => ih

theorem shallow_of_mem (h : p.Shallow depth ops) (ho : o ∈ ops) : p.Shallow depth [o] := by
  cases depth with
  | zero => exact absurd (h ▸ ho) List.not_mem_nil
  | succ depth => exact List.forall_mem_singleton.2 (h o ho)

theorem Linked.shallow (hp : p.Linked) (h : ∀ o ∈ ops, o.index < depth) : p.Shallow depth ops := by
  induction depth generalizing ops with
  | zero => exact List.eq_nil_iff_forall_not_mem.2 fun o ho => absurd (h o ho) (Nat.not_lt_zero _)
  | succ depth ih =>
    refine fun o ho => ih fun z hz => ?_
    exact Nat.lt_of_lt_of_le (hp.nested_lt hz) (Nat.le_of_lt_succ (h o ho))

/-- Any depth that is enough gives the same history. -/
theorem opHistory_depth (h : p.Shallow depth [o]) (h' : p.Shallow depth' [o]) :
    p.opHistory depth o = p.opHistory depth' o := by
  induction depth generalizing o depth' with
  | zero => exact absurd h (List.cons_ne_nil _ _)
  | succ depth ih =>
    cases depth' with
    | zero => exact absurd h' (List.cons_ne_nil _ _)
    | succ depth' =>
      have h : ∀ b ∈ (p.op o).regions, p.Shallow depth (p.block b).ops :=
        shallow_flatMap.1 (h o List.mem_cons_self)
      have h' : ∀ b ∈ (p.op o).regions, p.Shallow depth' (p.block b).ops :=
        shallow_flatMap.1 (h' o List.mem_cons_self)
      rw [opHistory, opHistory]
      congr 1
      refine List.flatMap_congr fun b hb => ?_
      rw [blockHistory, blockHistory]
      congr 2
      exact List.flatMap_congr fun z hz =>
        ih (shallow_of_mem (h b hb) hz) (shallow_of_mem (h' b hb) hz)

theorem blockHistory_depth (h : p.Shallow depth (p.block b).ops)
    (h' : p.Shallow depth' (p.block b).ops) :
    p.blockHistory (p.opHistory depth) b = p.blockHistory (p.opHistory depth') b := by
  rw [blockHistory, blockHistory]
  congr 2
  exact List.flatMap_congr fun z hz =>
    opHistory_depth (shallow_of_mem h hz) (shallow_of_mem h' hz)

/-! ## Growth -/

theorem opHistory_congr (hop : q.op = p.op) (hblock : q.block = p.block) (depth : Nat) :
    q.opHistory depth = p.opHistory depth := by
  induction depth with
  | zero => rfl
  | succ depth ih =>
    funext o
    have hhistory : q.blockHistory (q.opHistory depth) = p.blockHistory (p.opHistory depth) := by
      funext b
      rw [blockHistory, blockHistory, hblock, ih]
    rw [opHistory, opHistory, hhistory, hop]

theorem Grows.opHistory (h : p.Grows q) (hp : p.Linked) (ho : o.index < p.ops.size) :
    q.opHistory depth o = p.opHistory depth o := by
  induction depth generalizing o with
  | zero => rfl
  | succ depth ih =>
    rw [Program.opHistory, Program.opHistory, h.op o ho]
    congr 1
    refine List.flatMap_congr fun b hb => ?_
    have howner := (hp.mem_regions o b).1 hb
    rw [blockHistory, blockHistory, h.owned b o howner]
    congr 2
    exact List.flatMap_congr fun z hz => ih (hp.size_of_mem_ops hz)

theorem Grows.blockHistory (h : p.Grows q) (hp : p.Linked) (hb : b.index < p.blocks.size)
    (hops : (q.block b).ops = (p.block b).ops) :
    q.blockHistory (q.opHistory depth) b = p.blockHistory (p.opHistory depth) b := by
  rw [Program.blockHistory, Program.blockHistory, h.args b hb, hops]
  congr 2
  exact List.flatMap_congr fun z hz => h.opHistory hp (hp.size_of_mem_ops hz)

end Program

end AsyncOrder
