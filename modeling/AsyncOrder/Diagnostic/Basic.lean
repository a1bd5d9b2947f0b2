import AsyncOrder.Text.Span

/-!
# Diagnostics
-/

namespace AsyncOrder

inductive Severity where
  | error | warning
deriving DecidableEq, Repr

def Severity.text : Severity → String
  | error => "error"
  | warning => "warning"

structure Diagnostic where
  severity : Severity
  code : Option String
  span : Option Span
  message : String
  hint : Option String
deriving DecidableEq, Repr

/-! ## Codes -/

namespace Code

def badSource : String := "E0001"

def undefinedValue : String := "E0101"
def duplicateDefinition : String := "E0102"
def typeMismatch : String := "E0103"
def resultCount : String := "E0104"
def misplacedTerminator : String := "E0105"
def badMemoryType : String := "E0106"
def hierarchyBoundary : String := "E0107"

def unknownOpInCompute : String := "E0201"
def scopeMismatch : String := "E0202"
def cyclicPrecedence : String := "E0203"
def channelNotInPairs : String := "E0204"
def missingArtifact : String := "E0205"

def invalidConflictMode : String := "E0301"
def unwritable : String := "E0302"

end Code

namespace Diagnostic

/-- An error in the source text. -/
def errorAt (code : String) (span : Span) (message : String) : Diagnostic :=
  ⟨.error, some code, some span, message, none⟩

def isError (d : Diagnostic) : Bool := d.severity = .error

/-- `error[E0101]: message (at 3..5)`, and the hint on a line of its own. -/
def text (d : Diagnostic) : String :=
  let code := match d.code with
    | some code => s!"[{code}]"
    | none => ""
  let place := match d.span with
    | some span => s!" (at {span.start}..{span.stop})"
    | none => ""
  let hint := match d.hint with
    | some hint => s!"\n  hint: {hint}"
    | none => ""
  s!"{d.severity.text}{code}: {d.message}{place}{hint}"

end Diagnostic

end AsyncOrder
