import AsyncOrder.Dependence.Growing
import AsyncOrder.Scope.Basic

/-!
# Dependency lists from graphs

Purging empties the dependency lists of the asynchronous operations of a scope; filling makes
each of them wait on the vertices from which an edge leads to it.  The token that stands for a
vertex is

    start, hierarchy terminator   none
    loop                          what the loop carries around first, if that is a token
    yield of a loop               the completion of the loop
    any other                     the completion of its owner

where the completion of an operation inside a conditional, waited on from outside, is that of
the conditional.  Sources are taken in ascending order.  All scopes are purged before the first
is filled.
-/

namespace AsyncOrder

namespace Program

variable (p : Program)

/-- The live asynchronous operations behind vertices of a scope. -/
def waiters (s : Scope) : List (Nat × OpId) :=
  s.indices.filterMap fun v =>
    match s.op? v with
    | some op => if p.isLive op && (p.kind op).isAsync then some (v, op) else none
    | none => none

/-! ## Purging -/

/-- Empties the dependency lists of the operations of a scope; counts the tokens removed. -/
def purge (s : Scope) : Program × Nat :=
  (p.waiters s).foldl (fun (p, removed) (_, op) => (p.clearDeps op, removed + (p.deps op).length))
    (p, 0)

/-! ## Filling -/

/-- The operation that stands for `producer` where `consumer` is: the outermost conditional
around it, with nothing but conditionals in between, that is not around `consumer` too. -/
def elevated (producer consumer : OpId) : OpId :=
  let outer := p.ancestors consumer
  let left := (p.ancestors producer).takeWhile fun a => p.kind a = .branch && a ∉ outer
  left.getLast?.getD producer

/-- The token through which `consumer` waits on `producer`. -/
def elevatedToken? (producer consumer : OpId) : Option ValueId :=
  if producer = consumer then none else p.completionToken? (p.elevated producer consumer)

/-- The token through which `consumer` waits on a vertex. -/
def vertexToken? (x : Vertex) (consumer : OpId) : Option ValueId :=
  match x.key.kind with
  | .start | .hierarchyTerminator => none
  | .controlLoop =>
    (x.op.bind fun loop => p.carriedArg? loop 0).filter fun v => (p.valueType v).isToken
  | .terminator => (x.op.bind p.parentOp?).bind fun loop => p.elevatedToken? loop consumer
  | _ => x.owner.bind fun producer => p.elevatedToken? producer consumer

/-- The vertices with an edge to `v`, in ascending order. -/
def sources (s : Scope) (v : Nat) : List Nat :=
  let before := s.graph.predecessors v
  s.indices.filter fun u => u ∈ before

/-- The tokens on which the operation `consumer` of vertex `v` has to wait. -/
def fillTokens (s : Scope) (v : Nat) (consumer : OpId) : List ValueId :=
  (sources s v).filterMap fun u =>
    ((s.vertices[u]?).bind fun x => p.vertexToken? x consumer).filter fun token =>
      p.definingOp? token ≠ some consumer

/-- Makes the operations of a scope wait on their sources; counts the tokens added. -/
def fill (s : Scope) : Growing :=
  p.growing.waitEach <|
    (p.waiters s).flatMap fun (v, op) => (p.fillTokens s v op).map (op, ·)

end Program

/-! ## All scopes -/

structure RewriteStats where
  purged : Nat
  filled : Nat
  duplicatesRemoved : Nat
  deadComputes : Nat
  joinsCollapsed : Nat
  hierarchyDepsDropped : Nat
  paramsRemoved : Nat
deriving DecidableEq, Repr

namespace RewriteStats

def zero : RewriteStats := ⟨0, 0, 0, 0, 0, 0, 0⟩

def add (a b : RewriteStats) : RewriteStats :=
  ⟨a.purged + b.purged, a.filled + b.filled, a.duplicatesRemoved + b.duplicatesRemoved,
    a.deadComputes + b.deadComputes, a.joinsCollapsed + b.joinsCollapsed,
    a.hierarchyDepsDropped + b.hierarchyDepsDropped, a.paramsRemoved + b.paramsRemoved⟩

end RewriteStats

namespace Program

variable (p : Program)

def purgeAll (t : ScopeTree) : Program × Nat :=
  t.toList.foldl (fun (p, n) s => let (p, m) := p.purge s; (p, n + m)) (p, 0)

def fillAll (t : ScopeTree) : Program × Nat :=
  t.toList.foldl (fun (p, n) s => let g := p.fill s; (g.program, n + g.added)) (p, 0)

/-- Takes all dependency lists from the edges of `t`. -/
def rewriteTokens (t : ScopeTree) : Program × RewriteStats :=
  let (p, purged) := p.purgeAll t
  let (p, filled) := p.fillAll t
  (p, { RewriteStats.zero with purged, filled })

end Program

end AsyncOrder
