import AsyncOrder.Dependence.Conflict
import AsyncOrder.Dependence.Growing

/-!
# Tracing memory conflicts

Tracing makes operations wait on the earlier operations they conflict with.  It only ever appends
tokens that are missing from a dependency list, and counts them.  Which tokens are needed depends
on the structure of the program, its operands and its types, none of which tracing changes.
-/

namespace AsyncOrder

namespace Program

variable (p : Program)

/-! ## One operation -/

/-- `sink` waits on `source`. -/
def addDependency (source sink : OpId) : Growing :=
  p.growing.waitAll sink (p.waitToken? source sink).toList

/-- `sink` waits on what conflicts with `refs`. -/
def traceRefs (sink : OpId) (refs : List PartialRef) (mode : ConflictMode) : Growing :=
  p.growing.waitAll sink (p.conflictTokens sink mode refs)

/-- `sink` waits on what conflicts with any of its accesses. -/
def trace (sink : OpId) (mode : ConflictMode) : Growing :=
  let acc := p.accesses sink
  p.growing.waitAll sink
    (p.conflictTokens sink mode acc.reads ++ p.conflictTokens sink mode acc.writes)

/-! ## Loop-carried tokens -/

/-- The token a loop carries around first, if it carries one there. -/
def carriedToken? (loop : OpId) : Option ValueId :=
  (p.carriedArg? loop 0).filter fun v => (p.valueType v).isToken

/-- Who waits on the carried token for `current`: itself, or what makes its initial token. -/
def carriedWaiter? (current : OpId) : Option OpId :=
  if (p.kind current).isAsync then some current
  else
    ((p.loopInit? current 0).bind p.definingOp?).filter fun op => (p.kind op).isAsync

/-- The join in front of a loop's yield. -/
def yieldJoin? (loop : OpId) : Option OpId :=
  (((p.loopYield? loop).bind fun y => (p.tokenList y).head?).bind p.definingOp?).filter
    fun op => p.kind op = .join

/-- What `current` adds to its loop: a wait on the carried token, and a wait of the join in front
of the yield. -/
def carriedWaits (loop current : OpId) (carried : ValueId) : List (OpId × ValueId) :=
  (p.carriedWaiter? current).toList.map (·, carried) ++
    match p.completionToken? current, p.yieldJoin? loop with
    | some token, some join => if join ≠ current then [(join, token)] else []
    | _, _ => []

/-- The waits that thread `current` through the loops around it, the innermost first, up to the
first enclosing operation that is no loop carrying a token. -/
def loopWaits (current : OpId) : (ancestors : List OpId) → List (OpId × ValueId)
  | [] => []
  | loop :: outer =>
    match p.carriedToken? loop with
    | some carried => p.carriedWaits loop current carried ++ loopWaits loop outer
    | none => []

/-- Threads `op` through the iterations of the loops around it. -/
def reconnect (op : OpId) : Growing :=
  p.growing.waitEach (p.loopWaits op (p.ancestors op))

/-! ## The whole program -/

/-- All tokens `sink` has to wait on.  Unless one mode is `forced`, reads wait on earlier writes
and writes on everything earlier. -/
def sinkTokens (forced : Option ConflictMode) (sink : OpId) : List ValueId :=
  let acc := p.accesses sink
  let refs := acc.reads ++ acc.writes
  p.conflictTokens sink (forced.getD .readAfterWrite) acc.reads ++
    p.conflictTokens sink (forced.getD .anyAfterAny) acc.writes ++
    p.makerTokens sink (refs.map (·.base)) ++
    p.makerTokens sink (refs.flatMap (·.dynamicIndices) ++ acc.scalarIns ++ acc.scalarOuts)

/-- Live asynchronous operations in document order. -/
def sinks : List OpId := p.walk.filter fun op => (p.kind op).isAsync

end Program

/-- Traces `sink`; if it waits on nothing then, it is threaded through its loops. -/
def Growing.traceSink (g : Growing) (forced : Option ConflictMode) (sink : OpId) : Growing :=
  let g := g.waitAll sink (g.program.sinkTokens forced sink)
  if (g.program.deps sink).isEmpty then
    g.waitEach (g.program.loopWaits sink (g.program.ancestors sink))
  else g

structure TraceStats where
  sinks : Nat
  tokensAdded : Nat
deriving DecidableEq, Repr

def Program.traceAll (p : Program) (forced : Option ConflictMode) : Program × TraceStats :=
  let g := p.sinks.foldl (fun g sink => g.traceSink forced sink) p.growing
  (g.program, ⟨p.sinks.length, g.added⟩)

end AsyncOrder
