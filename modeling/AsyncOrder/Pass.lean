/-!
# Passes

The passes of a canonicalization, what each consumes and produces.  A pass needs all outputs of
its input passes.  `Pass.required p` lists the passes that lead to `p`, each after its inputs.
-/

namespace AsyncOrder

inductive Pass where
  | build | trace | resolve | stitch | reduce | rewrite | cleanup
deriving DecidableEq, Repr

/-- What passes produce. -/
inductive Artifact where
  | scopeGraphs
  /-- Keys and operations looked up in the scope graphs. -/
  | context
  /-- Dependency lists extended by memory conflicts. -/
  | tracedDeps
  /-- Token edges. -/
  | edges
  /-- Start and terminator edges, links between scopes. -/
  | stitched
  | reduced
  | vertexMaps
  /-- Dependency lists taken from the reduced graphs. -/
  | rewritten
  | canonical
deriving DecidableEq, Repr

namespace Artifact

def all : List Artifact := [
  scopeGraphs, context, tracedDeps, edges, stitched, reduced, vertexMaps, rewritten, canonical]

def name : Artifact → String
  | scopeGraphs => "ScopeGraphs"
  | context => "Context"
  | tracedDeps => "TracedDeps"
  | edges => "Edges"
  | stitched => "Stitched"
  | reduced => "Reduced"
  | vertexMaps => "VertexMaps"
  | rewritten => "Rewritten"
  | canonical => "Canonical"

def ofName? (s : String) : Option Artifact := all.find? fun a => a.name == s

end Artifact

namespace Pass

def all : List Pass := [build, trace, resolve, stitch, reduce, rewrite, cleanup]

def name : Pass → String
  | build => "build"
  | trace => "trace"
  | resolve => "resolve"
  | stitch => "stitch"
  | reduce => "reduce"
  | rewrite => "rewrite"
  | cleanup => "cleanup"

def ofName? (s : String) : Option Pass := all.find? fun p => p.name == s

/-- The passes whose outputs a pass consumes. -/
def inputs : Pass → List Pass
  | build | trace => []
  | resolve => [build, trace]
  | stitch => [resolve]
  | reduce => [stitch]
  | rewrite => [reduce]
  | cleanup => [rewrite]

def outputs : Pass → List Artifact
  | build => [.scopeGraphs, .context]
  | trace => [.tracedDeps]
  | resolve => [.edges]
  | stitch => [.stitched]
  | reduce => [.reduced, .vertexMaps]
  | rewrite => [.rewritten]
  | cleanup => [.canonical]

/-- What holds after the pass, in words. -/
def invariants : Pass → String
  | build => "one vertex per async event, one child scope per hierarchy call"
  | trace => "dependency lists only grow"
  | resolve => "no duplicate edges, no cross-scope edges"
  | stitch => "every non-start vertex has a predecessor"
  | reduce => "reachability preserved per scope, graphs acyclic"
  | rewrite => "dependency lists mirror reduced in-edges"
  | cleanup => "no duplicate tokens, no single-input joins"

/-- Appends to `order` what is missing to run `p`, inputs first.  Chains of inputs are at most
`depth` long. -/
def visit : (depth : Nat) → (order : List Pass) → (p : Pass) → List Pass
  | 0, order, _ => order
  | depth + 1, order, p =>
    if p ∈ order then order else p.inputs.foldl (visit depth) order ++ [p]

/-- The passes that lead to `p`, in running order. -/
def required (p : Pass) : List Pass := visit all.length [] p

end Pass

end AsyncOrder
