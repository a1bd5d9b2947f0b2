import AsyncOrder.Diagnostic.Basic
import AsyncOrder.Program.Basic
import AsyncOrder.Scope.Vertex
import AsyncOrder.Pass

/-!
# Failures

What can end a canonicalization of an accepted program, and how it is reported.
-/

namespace AsyncOrder

inductive Failure where
  /-- A compute body holds an operation that is no primitive. -/
  | unknownOpInCompute (op : OpId) (label : String) (span : Option Span)
  /-- Hierarchy calls and child scopes of a scope differ in number. -/
  | scopeMismatch (scope : String) (calls children : Nat)
  /-- The vertex lies on a cycle of the scope's graph. -/
  | cyclicPrecedence (scope : String) (vertex : Key)
  /-- A channel without exactly one put and one get. -/
  | channelNotInPairs (channel : String) (puts gets : Nat)
  /-- A pass was started before `artifact` was there. -/
  | missingArtifact (pass : Pass) (artifact : Artifact)
  | invalidConflictMode (mode : String)
  /-- A file could not be written; `cause` is the system's word for why. -/
  | unwritable (path cause : String)
deriving DecidableEq, Repr

namespace Failure

def message : Failure → String
  | unknownOpInCompute _ label _ => s!"unknown op '{label}' inside compute body"
  | scopeMismatch scope calls children =>
    s!"mismatch between # graphs and hierarchy ops in scope '{scope}': " ++
      s!"{calls} hierarchy calls, {children} child scopes"
  | cyclicPrecedence scope vertex =>
    s!"cyclic precedence in scope '{scope}' at vertex {vertex.text}"
  | channelNotInPairs channel puts gets =>
    s!"channel '{channel}' not in pairs: {puts} put(s), {gets} get(s)"
  | missingArtifact pass artifact =>
    s!"pass '{pass.name}' needs {artifact.name}, which has not been produced"
  | invalidConflictMode mode => s!"invalid conflict mode '{mode}'"
  | unwritable path cause => s!"cannot write '{path}': {cause}"

def code : Failure → String
  | unknownOpInCompute .. => Code.unknownOpInCompute
  | scopeMismatch .. => Code.scopeMismatch
  | cyclicPrecedence .. => Code.cyclicPrecedence
  | channelNotInPairs .. => Code.channelNotInPairs
  | missingArtifact .. => Code.missingArtifact
  | invalidConflictMode _ => Code.invalidConflictMode
  | unwritable .. => Code.unwritable

def span? : Failure → Option Span
  | unknownOpInCompute _ _ span => span
  | _ => none

def hint? : Failure → Option String
  | unknownOpInCompute .. =>
    some ("compute bodies may contain alloc, dealloc, copy, transform, muli, addi, apply " ++
      "and const")
  | channelNotInPairs .. => some "each channel needs exactly one put and one get"
  | invalidConflictMode _ => some "expected 'RAW' or 'WAW/WAR'"
  | _ => none

def diagnostic (f : Failure) : Diagnostic :=
  ⟨.error, some f.code, f.span?, f.message, f.hint?⟩

/-- Does the failure come from another one, of the system? -/
def hasCause : Failure → Bool
  | unwritable .. => true
  | _ => false

end Failure

end AsyncOrder
