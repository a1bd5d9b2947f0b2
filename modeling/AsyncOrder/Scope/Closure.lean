import AsyncOrder.Scope.Basic
import AsyncOrder.Diagnostic.Failure

/-!
# Closing scopes

Closing a scope puts every vertex between its start and its terminator: vertices without
successor lead to the terminator, if there is one, and then the start leads to vertices without
predecessor.  Linking pairs the hierarchy calls of a scope with its children, in order, and the
terminator of each child with its call.

`stitch` closes and links all scopes, outer ones first.  A scope whose calls and children differ
in number ends it; what was done before that stays done.
-/

namespace AsyncOrder

structure StitchStats where
  fromStart : Nat
  toTerminator : Nat
deriving DecidableEq, Repr

namespace StitchStats

def zero : StitchStats := ⟨0, 0⟩

def add (a b : StitchStats) : StitchStats :=
  ⟨a.fromStart + b.fromStart, a.toTerminator + b.toTerminator⟩

end StitchStats

/-! ## Start and terminator -/

namespace Scope

variable (s : Scope)

/-- Edges to the terminator from the vertices without successor. -/
def endEdges : List (Nat × Nat) :=
  match s.terminator with
  | none => []
  | some t =>
    let loose := s.indices.filter fun v => v ≠ start && v ≠ t && s.graph.isSink v
    loose.map (·, t)

/-- Edges from the start to the vertices without predecessor. -/
def startEdges : List (Nat × Nat) :=
  (s.indices.filter fun v => v ≠ start && s.graph.isSource v).map (start, ·)

def closeEnd : Scope := s.addEdges s.endEdges

def close : Scope := s.closeEnd.addEdges s.closeEnd.startEdges

/-- How many edges `close` adds. -/
def closeStats : StitchStats := ⟨s.closeEnd.startEdges.length, s.endEdges.length⟩

/-! ## Links -/

/-- Links the calls to the children of the same number. -/
def linkCalls : Scope := s.calls.zipIdx.foldl (fun s (v, i) => s.setLink v (.child i)) s

/-- Links the terminator to a call of the parent scope. -/
def linkTerminator (call : Option Nat) : Scope :=
  match s.terminator, call with
  | some t, some v => s.setLink t (.parent v)
  | _, _ => s

/-- The failure of a scope at `path` with the given number of children, if there is one. -/
def mismatch? (path : Path) (children : Nat) : Option Failure :=
  let calls := s.calls.length
  if calls = children then none
  else some (.scopeMismatch (s.kind.nameAt path) calls children)

end Scope

/-- Links the root to its children. -/
def Tree.linkChildren (path : Path) : ScopeTree → Except Failure ScopeTree
  | .node s ts =>
    match s.mismatch? path ts.length with
    | some failure => .error failure
    | none =>
      .ok (.node s.linkCalls
        (ts.zipIdx.map fun (t, i) => t.modifyRoot fun child => child.linkTerminator s.calls[i]?))

/-! ## All scopes -/

/-- What stitching has come to; `scopes` is a tree, or the children of a node. -/
structure Stitched (scopes : Type) where
  scopes : scopes
  stats : StitchStats
  failure : Option Failure

mutual

/-- Stitches the scope at `path`, the body of `call`, and those below it. -/
def stitchFrom (path : Path) (call : Option Nat) : ScopeTree → Stitched ScopeTree
  | .node s ts =>
    let s := s.linkTerminator call
    let closed := s.close
    match closed.mismatch? path ts.length with
    | some failure => ⟨.node closed ts, s.closeStats, some failure⟩
    | none =>
      let below := stitchChildren path closed.calls 0 ts
      ⟨.node closed.linkCalls below.scopes, s.closeStats.add below.stats, below.failure⟩

/-- Stitches the children from number `i` on.  After a failure the others are only linked. -/
def stitchChildren (path : Path) (calls : List Nat) (i : Nat) :
    List ScopeTree → Stitched (List ScopeTree)
  | [] => ⟨[], .zero, none⟩
  | t :: ts =>
    let first := stitchFrom (path ++ [i]) calls[i]? t
    match first.failure with
    | some failure =>
      let linked := (ts.zipIdx (i + 1)).map fun (t, i) =>
        t.modifyRoot fun s => s.linkTerminator calls[i]?
      ⟨first.scopes :: linked, first.stats, some failure⟩
    | none =>
      let others := stitchChildren path calls (i + 1) ts
      ⟨first.scopes :: others.scopes, first.stats.add others.stats, others.failure⟩

end

/-- Closes and links every scope. -/
def Tree.stitch (t : ScopeTree) : Stitched ScopeTree := stitchFrom [] none t

end AsyncOrder
