import AsyncOrder.Dependence.Control
import AsyncOrder.Rewriting.Tokens

/-!
# Cleaning up

Five changes that leave the order of events as it is, or make it easier to see:

    dedupDeps             no dependency list names a token twice
    removeDeadComputes    computes go whose one other result is unused and whose body only
                          computes; who waited on one waits on what it waited on
    collapseJoins         a join of one token gives way to the token
    limitHierarchyDeps    segments and herds wait on control tokens only, and on those behind
                          their other dependencies
    removeUnusedParams    parameters of hierarchy calls go that are not used
-/

namespace AsyncOrder

namespace Program

variable (p : Program)

/-- Applies `change` to one operation after the other and adds up its counts. -/
def changeEach (ops : List OpId) (change : Program → OpId → Program × Nat) : Program × Nat :=
  ops.foldl (fun (p, n) op => let (p, m) := change p op; (p, n + m)) (p, 0)

/-! ## Repeated tokens -/

/-- Keeps the first of each token that `op` waits on. -/
def dedupDepsOf (op : OpId) : Program × Nat :=
  let unique := (p.deps op).eraseDups
  (p.setDeps op unique, (p.deps op).length - unique.length)

def dedupDeps : Program × Nat := p.changeEach p.walk dedupDepsOf

/-! ## Dead computes -/

/-- Going by `uses`: two results, the second unused, the first nowhere an operand, and a body
without side effects. -/
def isDeadCompute (uses : UseMap) (op : OpId) : Bool :=
  p.kind op = .compute &&
    match (p.op op).results with
    | [token, result] =>
      (uses.get result).isEmpty &&
        (uses.get token).all (fun u => u.operand?.isNone) &&
        (((p.body? op).map p.walkBlock).getD []).all fun o => (p.kind o).isSideEffectFree
    | _ => false

end Program

/-- A program in the course of a sweep, with the uses found at its start and those added since. -/
structure Sweep where
  program : Program
  uses : UseMap

namespace Sweep

/-- `waiter` waits on `token` as well. -/
def wait (w : Sweep) (waiter : OpId) (token : ValueId) : Sweep :=
  if w.program.lacksDep waiter token then
    ⟨w.program.addDep waiter token,
      w.uses.add token ⟨waiter, .dep (w.program.deps waiter).length⟩⟩
  else w

/-- A live `waiter` waits on all of `tokens`. -/
def inherit (w : Sweep) (tokens : List ValueId) (waiter : OpId) : Sweep :=
  if w.program.isLive waiter then tokens.foldl (fun w token => w.wait waiter token) w else w

/-- Erases a dead compute; who waited on it inherits what it waited on. -/
def eraseCompute (w : Sweep) (op : OpId) : Sweep :=
  match (w.program.op op).results with
  | [] => w
  | token :: _ =>
    let waiters := (w.uses.get token).filterMap fun u =>
      if u.operand?.isNone then some u.op else none
    let w := waiters.foldl (inherit · (w.program.deps op)) w
    { w with program := (w.program.eraseTokenUses token).eraseOp op }

end Sweep

namespace Program

variable (p : Program)

def deadComputes (uses : UseMap) : List OpId := p.walk.filter (p.isDeadCompute uses)

/-- Erases what is dead, sweep after sweep, until a sweep finds nothing; at most `limit`. -/
def sweepDeadComputes : (limit : Nat) → Program → Program × Nat
  | 0, p => (p, 0)
  | limit + 1, p =>
    let dead := p.deadComputes p.useMap
    if dead.isEmpty then (p, 0)
    else
      let swept := dead.foldl Sweep.eraseCompute ⟨p, p.useMap⟩
      let (q, n) := sweepDeadComputes limit swept.program
      (q, dead.length + n)

/-- Every sweep but the last erases an operation. -/
def removeDeadComputes : Program × Nat := sweepDeadComputes (p.ops.size + 1) p

/-! ## Joins of one token -/

/-- Uses of the join `op` become uses of the one token it waits on. -/
def collapseJoin (op : OpId) : Program × Nat :=
  if p.isLive op && p.kind op = .join then
    match p.deps op, (p.op op).results with
    | [input], result :: _ => ((p.replaceUses result input).eraseOp op, 1)
    | _, _ => (p, 0)
  else (p, 0)

def collapseJoins : Program × Nat := p.changeEach p.walk collapseJoin

/-! ## Dependencies of hierarchy calls -/

/-- Does the control-token rule hold for operations of this kind? -/
def waitsOnControl : OpKind → Bool
  | .hierarchy .segment _ | .hierarchy .herd _ => true
  | _ => false

/-- Tokens that come from outside all operations are kept, too. -/
def keptDep (v : ValueId) : Bool := (p.definingOp? v).isNone || p.isControlToken v

def limitDepsOf (op : OpId) : Program × Nat :=
  if waitsOnControl (p.kind op) then
    let q := (p.controlTokens op).foldl (fun q token => q.addDep op token) p
    let kept := (q.deps op).filter q.keptDep
    (q.setDeps op kept, (q.deps op).length - kept.length)
  else (p, 0)

def limitHierarchyDeps : Program × Nat := p.changeEach p.walk limitDepsOf

/-! ## Unused parameters -/

/-- Removes the unused parameters of one call, the last one first. -/
def removeUnusedParamsOf (op : OpId) : Program × Nat :=
  ((p.hierarchyPairs op).zipIdx.reverse).foldl
    (fun (p, n) ((_, inner), i) => if p.isUsed inner then (p, n) else (p.removeParam op i, n + 1))
    (p, 0)

/-- Inner calls come first, since a parameter may be used only to be passed on to them. -/
def removeUnusedParams : Program × Nat := p.changeEach p.walk.reverse removeUnusedParamsOf

/-! ## All of them -/

/-- Tokens may come to be repeated when joins collapse. -/
def cleanup : Program × RewriteStats :=
  let (p, duplicates) := p.dedupDeps
  let (p, deadComputes) := p.removeDeadComputes
  let (p, joinsCollapsed) := p.collapseJoins
  let (p, moreDuplicates) := p.dedupDeps
  let (p, hierarchyDepsDropped) := p.limitHierarchyDeps
  let (p, paramsRemoved) := p.removeUnusedParams
  (p, { RewriteStats.zero with
    duplicatesRemoved := duplicates + moreDuplicates
    deadComputes, joinsCollapsed, hierarchyDepsDropped, paramsRemoved })

/-- Takes all dependency lists from the edges of `t` and cleans up. -/
def rewrite (t : ScopeTree) : Program × RewriteStats :=
  let (p, tokens) := p.rewriteTokens t
  let (p, rest) := p.cleanup
  (p, tokens.add rest)

end Program

end AsyncOrder
