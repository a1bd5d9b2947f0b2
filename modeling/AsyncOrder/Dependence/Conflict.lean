import AsyncOrder.Access
import AsyncOrder.Diagnostic.Failure

/-!
# Conflicting accesses

A conflict mode says which earlier accesses a later one has to wait for.  An operation waits on
another one through a token; what lies deep inside a nested block is waited on through the
operation around it that stands in the waiter's own block, before the waiter (`waitToken?`).
-/

namespace AsyncOrder

inductive ConflictMode where
  /-- Earlier writes only. -/
  | readAfterWrite
  /-- Earlier reads and writes. -/
  | anyAfterAny
deriving DecidableEq, Repr

namespace ConflictMode

def text : ConflictMode → String
  | readAfterWrite => "RAW"
  | anyAfterAny => "WAW/WAR"

def ofText (s : String) : Except Failure ConflictMode :=
  if s = readAfterWrite.text then .ok readAfterWrite
  else if s = anyAfterAny.text then .ok anyAfterAny
  else .error (.invalidConflictMode s)

def admits : ConflictMode → Role → Bool
  | readAfterWrite, role => role.writes
  | anyAfterAny, role => role.reads || role.writes

end ConflictMode

namespace Program

variable (p : Program)

/-! ## Whom to wait on -/

/-- The token of the first of `candidates` that stands before `sink` in its block and has one;
`sink` itself ends the search. -/
def firstWaitToken? (sink : OpId) : List OpId → Option ValueId
  | [] => none
  | candidate :: outer =>
    if candidate = sink then none
    else if p.isBefore candidate sink then
      match p.completionToken? candidate with
      | some token => some token
      | none => firstWaitToken? sink outer
    else firstWaitToken? sink outer

/-- The token through which `sink` waits on `source`. -/
def waitToken? (source sink : OpId) : Option ValueId :=
  p.firstWaitToken? sink (source :: p.ancestors source)

/-! ## Conflicts of one reference -/

/-- The operations outside `sink` with an operand that conflicts with `r`. -/
def conflicts (sink : OpId) (mode : ConflictMode) (r : PartialRef) : List OpId :=
  (p.operandUses r.base).filterMap fun (op, i) =>
    if op = sink || sink ∈ p.ancestors op then none
    else if mode.admits (p.operandRole op i) && r.overlaps (p.operandRef op i r.base) then
      some op
    else none

/-- The tokens `sink` has to wait on because of `refs`. -/
def conflictTokens (sink : OpId) (mode : ConflictMode) (refs : List PartialRef) : List ValueId :=
  (refs.flatMap (p.conflicts sink mode)).filterMap (p.waitToken? · sink)

/-! ## Producers of buffers and indices -/

/-- The other compute that makes `v`. -/
def madeBy? (sink : OpId) (v : ValueId) : Option OpId :=
  (p.definingOp? v).filter fun op => op ≠ sink && p.kind op = .compute

/-- The tokens of the computes that make one of `vs`. -/
def makerTokens (sink : OpId) (vs : List ValueId) : List ValueId :=
  (vs.filterMap (p.madeBy? sink)).filterMap (p.waitToken? · sink)

end Program

end AsyncOrder
