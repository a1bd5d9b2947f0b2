import AsyncOrder.Dependence.Tracing
import AsyncOrder.Rewriting.Cleanup
import AsyncOrder.Scope.Closure
import AsyncOrder.Scope.Context
import AsyncOrder.Scope.Reduction

/-!
# Sessions

A session is a program on its way to its canonical form: the program as it is now, the scope
trees made from it, which passes ran, and what they produced.
-/

namespace AsyncOrder

structure Options where
  /-- Make operations wait on what they conflict with in memory. -/
  traceMemory : Bool
  /-- One mode for reads and writes alike. -/
  forcedMode : Option ConflictMode
deriving DecidableEq, Repr

def Options.default : Options := ⟨false, none⟩

/-- Counts of what the passes did. -/
structure Stats where
  traced : Option TraceStats
  edgesResolved : Nat
  stitched : Option StitchStats
  rewrite : RewriteStats

structure Session where
  program : Program
  options : Options
  /-- Where the vertices of the graphs are. -/
  context : Option Context
  /-- The scope graphs as built, then resolved and stitched. -/
  graphs : Option ScopeTree
  reduced : Option ScopeTree
  vertexMaps : Option (Tree VertexMap)
  stats : Stats
  /-- The passes that ran, in order. -/
  ran : List Pass
  artifacts : List Artifact

namespace Session

def start (program : Program) (options : Options) : Session :=
  ⟨program, options, none, none, none, none, ⟨none, 0, none, .zero⟩, [], []⟩

variable (s : Session)

def has (a : Artifact) : Bool := a ∈ s.artifacts

/-- The scope tree that has come furthest. -/
def latest? : Option ScopeTree := s.reduced.or s.graphs

/-- Notes that the artifacts are there now. -/
def produce (as : List Artifact) : Session :=
  { s with artifacts := s.artifacts ++ as.filter fun a => a ∉ s.artifacts }

/-- Notes that a pass ran. -/
def finish (pass : Pass) : Session :=
  let s := s.produce pass.outputs
  { s with ran := s.ran ++ [pass] }

/-- Adds to the counts of the rewriting passes. -/
def countRewrite (stats : RewriteStats) : Session :=
  { s with stats := { s.stats with rewrite := s.stats.rewrite.add stats } }

end Session

end AsyncOrder
