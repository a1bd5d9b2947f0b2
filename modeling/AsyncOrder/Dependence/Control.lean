import AsyncOrder.Program.Query
import AsyncOrder.Search

/-!
# Control tokens

A control token marks a point of the control flow: it is carried by a loop, or a result of a
join, a loop or a conditional.  `controlTokens op` are those that the dependencies of `op` lead
back to through other asynchronous operations.
-/

namespace AsyncOrder.Program

variable (p : Program)

def isControlToken (v : ValueId) : Bool :=
  (p.carriedOwner? v).isSome ||
    match (p.definingOp? v).map p.kind with
    | some .join | some (.loop _) | some .branch => true
    | _ => false

/-- What the producer of a token waits on.  A control token ends the way back. -/
def waitsBehind (token : ValueId) : List ValueId :=
  if p.isControlToken token then []
  else
    match p.definingOp? token with
    | some op => if (p.kind op).isAsync then p.deps op else []
    | none => []

def controlTokens (op : OpId) : List ValueId :=
  (visit p.waitsBehind p.values.size (p.deps op) .empty).filter p.isControlToken

end AsyncOrder.Program
