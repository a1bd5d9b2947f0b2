import AsyncOrder.Program.Query
import AsyncOrder.Search

/-!
# Induction variables behind an operation

Scalar operands are followed backwards to what they are computed from: through the operands of
the defining operation, from a result of a compute to what its body yields there, and from a
parameter of a hierarchy call to the kernel operand.  The search looks at no more than
`inductionLimit` values.
-/

namespace AsyncOrder

/-- Most values looked at by one search. -/
def inductionLimit : Nat := 64

structure InductionTrace where
  inductionVars : List ValueId
  /-- Operations passed through. -/
  visitedOps : List OpId
deriving DecidableEq, Repr

namespace Program

variable (p : Program)

/-- The loop whose induction variable `v` is. -/
def inductionOwner? (v : ValueId) : Option OpId :=
  match p.argOwner? v with
  | some (block, 0) => (p.block block).parentOp.filter fun owner => (p.kind owner).isLoop
  | _ => none

/-- The kernel operand that a parameter receives. -/
def outerOperand? (v : ValueId) : Option ValueId :=
  (p.paramOwner? v).bind fun (call, i) => (p.op call).operands[i]?

/-- What the body of a compute yields for its result `v`; result 0 is its token. -/
def yieldedFor? (compute : OpId) (v : ValueId) : Option ValueId :=
  match (p.op compute).results.idxOf? v, (p.body? compute).bind p.terminator? with
  | some (i + 1), some y => (p.op y).operands[i]?
  | _, _ => none

/-- What `v` is computed from, the last operand first. -/
def computedFrom (v : ValueId) : List ValueId :=
  match p.definingOp? v with
  | none => (p.outerOperand? v).toList
  | some op =>
    if p.kind op = .compute then (p.yieldedFor? op v).toList else (p.op op).operands.reverse

def inductionTrace (op : OpId) : InductionTrace :=
  let scalars := (p.op op).operands.filter fun v =>
    !(p.valueType v).isMemref && !(p.valueType v).isToken
  let visited := visit p.computedFrom inductionLimit scalars.reverse .empty
  { inductionVars := visited.filter fun v => (p.inductionOwner? v).isSome
    visitedOps := (visited.filterMap p.definingOp?).eraseDups }

end Program

end AsyncOrder
