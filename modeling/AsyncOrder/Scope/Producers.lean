import AsyncOrder.Program.Query
import AsyncOrder.Scope.Context

/-!
# Producers of tokens

A token is produced by the vertex after which it is there:

    carried by a loop               the vertex of the loop
    result of an asynchronous op    its last vertex
    result of a loop                the yield of the loop
    result i of a conditional       what produces the value that each branch yields at i

Any other token, such as a function argument, is there from the start.  Resolving turns the
token lists of all vertices into edges from the producers, within one scope and each once.
-/

namespace AsyncOrder

namespace Program

variable (p : Program) (c : Context)

/-- The values that the branches of the conditional behind `token` yield for it. -/
def yieldedBy (token : ValueId) : List ValueId :=
  if (p.carriedOwner? token).isSome then []
  else
    match p.definingOp? token with
    | none => []
    | some op =>
      match p.kind op, (p.op op).results.idxOf? token with
      | .branch, some i =>
        (p.op op).regions.filterMap fun region =>
          (p.terminator? region).bind fun y => (p.op y).operands[i]?
      | _, _ => []

/-- The vertex that produces `token` itself. -/
def directProducer? (token : ValueId) : Option Key :=
  match p.carriedOwner? token with
  | some loop => c.exit? loop
  | none =>
    (p.definingOp? token).bind fun op =>
      match p.kind op with
      | .loop _ => (p.loopYield? op).bind c.exit?
      | kind => if kind.isAsync then c.exit? op else none

/-- The vertices that produce `token`, each once. -/
def producers (token : ValueId) : List Key :=
  ((visit p.yieldedBy p.values.size [token] .empty).filterMap (p.directProducer? c)).eraseDups

/-- The edges to `consumer`, a vertex of the scope `s` at `path`. -/
def edgesTo (path : Path) (s : Scope) (consumer : Nat) : List (Nat × Nat) :=
  ((s.op? consumer).map p.tokenList).getD [] |>.flatMap fun token =>
    (p.producers c token).filterMap fun key =>
      match c.lookup? key with
      | some (place, producer) =>
        if place = path && producer ≠ consumer then some (producer, consumer) else none
      | none => none

/-- The scope at `path` with the edges of its tokens. -/
def resolveScope (path : Path) (s : Scope) : Scope :=
  s.addEdges (s.indices.flatMap (p.edgesTo c path s))

end Program

/-- A scope tree and the number of edges added to it. -/
structure Resolved where
  tree : ScopeTree
  added : Nat

/-- Adds the edges of all tokens. -/
def Program.resolve (p : Program) (c : Context) (t : ScopeTree) : Resolved :=
  let tree := t.mapWithPath (p.resolveScope c) []
  ⟨tree, tree.totals.2 - t.totals.2⟩

end AsyncOrder
