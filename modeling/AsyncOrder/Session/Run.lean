import AsyncOrder.Scope.Build
import AsyncOrder.Scope.Producers
import AsyncOrder.Session.Basic
import AsyncOrder.Lowering.Basic

/-!
# Running passes

`Session.run terminal` runs the passes that lead to `terminal`.  The first failure ends the run
and names its pass; what was done up to there stays done.  Without memory tracing the
dependency lists count as traced as they are.
-/

namespace AsyncOrder

/-- A session after an attempt, and what ended the attempt early. -/
structure Attempt (ε : Type) where
  session : Session
  failure : Option ε

structure PassFailure where
  pass : Pass
  failure : Failure
deriving DecidableEq, Repr

/-- `build failed: message`. -/
def PassFailure.message (f : PassFailure) : String := s!"{f.pass.name} failed: {f.failure.message}"

namespace Session

variable (s : Session)

/-! ## The passes -/

def failed (f : Failure) : Attempt Failure := ⟨s, some f⟩

def done : Attempt Failure := ⟨s, none⟩

def build : Attempt Failure :=
  match s.program.scopeTree with
  | .error f => s.failed f
  | .ok (tree, context) => { s with graphs := some tree, context := some context }.done

def trace : Attempt Failure :=
  let (program, stats) := s.program.traceAll s.options.forcedMode
  { s with program, stats := { s.stats with traced := some stats } }.done

def resolve : Attempt Failure :=
  match s.context, s.graphs with
  | none, _ => s.failed (.missingArtifact .resolve .context)
  | _, none => s.failed (.missingArtifact .resolve .scopeGraphs)
  | some context, some tree =>
    let resolved := s.program.resolve context tree
    { s with
      graphs := some resolved.tree
      stats := { s.stats with edgesResolved := resolved.added } }.done

def stitch : Attempt Failure :=
  match s.graphs with
  | none => s.failed (.missingArtifact .stitch .scopeGraphs)
  | some tree =>
    let stitched := tree.stitch
    let s := { s with graphs := some stitched.scopes }
    match stitched.failure with
    | some f => s.failed f
    | none => { s with stats := { s.stats with stitched := some stitched.stats } }.done

def reduce : Attempt Failure :=
  match s.graphs with
  | none => s.failed (.missingArtifact .reduce .stitched)
  | some tree =>
    match tree.reduceWithMaps with
    | .error f => s.failed f
    | .ok (reduced, maps) => { s with reduced := some reduced, vertexMaps := some maps }.done

def rewrite : Attempt Failure :=
  match s.reduced with
  | none => s.failed (.missingArtifact .rewrite .reduced)
  | some tree =>
    let (program, stats) := s.program.rewriteTokens tree
    ({ s with program }.countRewrite stats).done

def cleanup : Attempt Failure :=
  let (program, stats) := s.program.cleanup
  ({ s with program }.countRewrite stats).done

def attempt : Pass → Attempt Failure
  | .build => s.build
  | .trace => s.trace
  | .resolve => s.resolve
  | .stitch => s.stitch
  | .reduce => s.reduce
  | .rewrite => s.rewrite
  | .cleanup => s.cleanup

/-! ## Runs -/

/-- The first output of an input pass that is not there. -/
def missing? (pass : Pass) : Option Artifact :=
  (pass.inputs.flatMap Pass.outputs).find? fun a => !s.has a

/-- Runs one pass; memory tracing is left out unless it is asked for. -/
def runPass (pass : Pass) : Attempt Failure :=
  match s.missing? pass with
  | some a => s.failed (.missingArtifact pass a)
  | none =>
    if pass = .trace && !s.options.traceMemory then (s.produce pass.outputs).done
    else
      let after := s.attempt pass
      match after.failure with
      | some f => after.session.failed f
      | none => (after.session.finish pass).done

def runAll : List Pass → Session → Attempt PassFailure
  | [], s => ⟨s, none⟩
  | pass :: passes, s =>
    let after := s.runPass pass
    match after.failure with
    | some f => ⟨after.session, some ⟨pass, f⟩⟩
    | none => runAll passes after.session

/-- Runs the passes that lead to `terminal`. -/
def run (terminal : Pass) : Attempt PassFailure := runAll terminal.required s

end Session

/-! ## Sources -/

/-- Runs all passes. -/
def Program.canonicalize (p : Program) (options : Options) : Attempt PassFailure :=
  (Session.start p options).run .cleanup

/-- Reads a program and runs all passes; failures of both kinds are told as diagnostics. -/
def canonicalizeSource (source : String) (options : Options) :
    Except (List Diagnostic) Session := do
  let p ← readProgram source
  let after := p.canonicalize options
  match after.failure with
  | some f => .error [f.failure.diagnostic]
  | none => .ok after.session

end AsyncOrder
