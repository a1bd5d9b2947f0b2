import AsyncOrder.Diagnostic.Basic
import AsyncOrder.Program.Query
import AsyncOrder.Source.Basic

/-!
# Names in scope

Lowering keeps a stack of frames, innermost first, one per block being lowered.  A name means
its latest definition in the innermost frame that has one.  The frame of a hierarchy body is
`isolated`: what lies beyond it is found, but must not be used.  Names are looked up through
`resolve`, which also checks the type that the place demands, and records every objection as a
diagnostic.
-/

namespace AsyncOrder

namespace Lowering

structure Frame where
  /-- Latest definition first. -/
  names : List (String × ValueId)
  isolated : Bool

structure State where
  program : Program
  /-- Innermost first. -/
  frames : List Frame
  diagnostics : List Diagnostic

abbrev Lower := StateM State

def report (d : Diagnostic) : Lower Unit :=
  modify fun s => { s with diagnostics := s.diagnostics ++ [d] }

def error (code : String) (span : Span) (message : String) : Lower Unit :=
  report (.errorAt code span message)

/-! ## Definitions -/

def Frame.define (f : Frame) (name : String) (v : ValueId) : Frame :=
  { f with names := (name, v) :: f.names }

/-- `name` means `v` from now on.  A second definition in one frame is an error, and holds. -/
def define (name : Source.Name) (v : ValueId) : Lower Unit := do
  match (← get).frames with
  | [] => return
  | frame :: outer =>
    modify fun s => { s with frames := frame.define name.text v :: outer }
    if (frame.names.lookup name.text).isSome then
      error Code.duplicateDefinition name.span
        s!"value '%{name.text}' is defined more than once"

def defineAll (names : List Source.Name) (vs : List ValueId) : Lower Unit :=
  (names.zip vs).forM fun (name, v) => define name v

/-- What `name` means, and whether that lies beyond an isolated frame. -/
def lookup (name : String) : List Frame → Option (ValueId × Bool)
  | [] => none
  | frame :: outer =>
    match frame.names.lookup name with
    | some v => some (v, false)
    | none => (lookup name outer).map fun (v, beyond) => (v, beyond || frame.isolated)

/-! ## Uses -/

/-- The class of value that a place demands. -/
inductive Demand where
  | any | token | index | memref
deriving DecidableEq, Repr

namespace Demand

def accepts : Demand → ValueType → Bool
  | any, _ => true
  | token, type => type.isToken
  | index, type => type = .index
  | memref, type => type.isMemref

def text : Demand → String
  | any => "any"
  | token => "token"
  | index => "index"
  | memref => "memref"

end Demand

/-- The value that `name` means, or none after an error has been reported. -/
def resolve (demand : Demand) (name : Source.Name) : Lower (Option ValueId) := do
  let s ← get
  match lookup name.text s.frames with
  | none =>
    error Code.undefinedValue name.span s!"undefined value '%{name.text}'"
    return none
  | some (_, true) =>
    report { Diagnostic.errorAt Code.hierarchyBoundary name.span
        s!"'%{name.text}' is defined outside the enclosing hierarchy body" with
      hint := some ("pass memrefs through 'args(..)' and tokens through the call's " ++
        "dependency list") }
    return none
  | some (v, false) =>
    let type := s.program.valueType v
    if demand.accepts type then return some v
    else
      error Code.typeMismatch name.span
        s!"'%{name.text}' has type {type.text}, expected {demand.text}"
      return none

/-- All of the values, or none when one of them is missing.  Every name is looked at. -/
def resolveAll (demand : Demand) : List Source.Name → Lower (Option (List ValueId))
  | [] => return some []
  | name :: names => do
    let v ← resolve demand name
    let vs ← resolveAll demand names
    return do
      let v ← v
      let vs ← vs
      return v :: vs

/-- A buffer and its offsets: none, or as many as the buffer has dimensions. -/
def resolveAccess (a : Source.Access) : Lower (Option (ValueId × List ValueId)) := do
  let base ← resolve .memref a.base
  let offsets ← resolveAll .index a.offsets
  match base, offsets with
  | some base, some offsets =>
    match ((← get).program.valueType base).rank? with
    | some rank =>
      if offsets.isEmpty || offsets.length = rank then return some (base, offsets)
      else
        error Code.typeMismatch a.base.span
          (s!"'%{a.base.text}' has rank {rank} but is indexed with " ++
            s!"{offsets.length} offsets")
        return none
    | none => return some (base, offsets)
  | _, _ => return none

/-! ## Types -/

/-- The dimension counts a buffer may have: those of 32 bits. -/
def isRank (n : Int) : Bool := 0 ≤ n && n < 0x100000000

/-- An unknown space reads as L3 and an impossible rank as 0, after an error. -/
def lowerType : Source.TypeExpr → Lower ValueType
  | .token _ => return .token
  | .index _ => return .index
  | .memref rank space span => do
    let known := MemorySpace.ofText? space.text
    if known.isNone then
      error Code.badMemoryType space.span s!"unknown memory space '{space.text}'"
    unless isRank rank do
      error Code.badMemoryType span s!"invalid rank {rank}"
    return .memref (if isRank rank then rank.toNat else 0) (known.getD .l3)

end Lowering

end AsyncOrder
