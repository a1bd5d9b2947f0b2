import AsyncOrder.Lowering.Names
import AsyncOrder.Source.Parser

/-!
# From source modules to programs

`lower` builds the program that a source module spells.  Statements become operations in order;
result types follow from the operation; a compute or hierarchy body without terminator gets one.
An operation that cannot be built is left out, and lowering goes on behind it, so the program is
sound only when no error has been reported.

    readProgram source = .ok program

holds exactly for texts without lexical, syntax and lowering errors.
-/

namespace AsyncOrder

namespace Lowering

/-- What a block is the body of. -/
inductive Region where
  | func | compute | loop | branch | hierarchy
deriving DecidableEq, Repr

/-- May the operation stand here?  A terminator may only end a body of its kind. -/
def allowedIn (region : Region) (isLast : Bool) : Source.Op → Bool
  | .yield _ => isLast && (region = .compute || region = .loop || region = .branch)
  | .finish => isLast && region = .hierarchy
  | _ => true

/-- Runs a step that adds to the program. -/
def build {α : Type} (step : Program → α × Program) : Lower α :=
  modifyGet fun s =>
    let (a, program) := step s.program
    (a, { s with program })

/-- A body without terminator gets an implicit one, or is an error. -/
def closeBody (block : BlockId) (region : Region) (span : Span) : Lower Unit := do
  if ((← get).program.terminator? block).isNone then
    match region with
    | .compute =>
      let _ ← build (·.appendOp block { kind := .yield })
    | .hierarchy =>
      let _ ← build (·.appendOp block { kind := .finish })
    | .loop | .branch => error Code.misplacedTerminator span "body must end with 'yield'"
    | .func => return

/-- Runs `body` in a frame of its own in which the arguments of `block` are defined. -/
def inFrame (isolated : Bool) (block : BlockId) (args : List Source.Name) (body : Lower Unit) :
    Lower Unit := do
  modify fun s => { s with frames := ⟨[], isolated⟩ :: s.frames }
  defineAll args ((← get).program.block block).args
  body
  modify fun s => { s with frames := s.frames.tail }

/-- A new block with the given arguments, filled by `fill`. -/
def inRegion (region : Region) (args : List (Source.Name × ValueType)) (span : Span)
    (fill : BlockId → Lower Unit) : Lower BlockId := do
  let block ← build (·.addBlock (args.map fun a => (some a.1.text, a.2)))
  inFrame (region = .hierarchy) block (args.map (·.1)) do
    fill block
    closeBody block region span
  return block

/-- The types of what the body yields. -/
def yieldedTypes (block : BlockId) : Lower (List ValueType) := do
  let p := (← get).program
  match p.terminator? block with
  | some op => return (p.op op).operands.map p.valueType
  | none => return []

/-! ## Operands that precede a body -/

/-- Bounds, initial values and their types. -/
def loopOperands (var lower upper step : Source.Name) (carried : List Source.Binding) :
    Lower (Option (List ValueId × List (Source.Name × ValueType))) := do
  let bounds ← resolveAll .index [lower, upper, step]
  let inits ← resolveAll .any (carried.map (·.outer))
  let p := (← get).program
  return do
    let bounds ← bounds
    let inits ← inits
    let types := inits.map p.valueType
    return (bounds ++ inits, (var, .index) :: (carried.map (·.inner)).zip types)

/-- A token may not be passed as an argument of a hierarchy call. -/
def refuseToken (binding : Source.Binding) (v : ValueId) : Lower Bool := do
  if ((← get).program.valueType v).isToken then
    report { Diagnostic.errorAt Code.hierarchyBoundary binding.outer.span
        s!"token '%{binding.outer.text}' cannot be passed as a hierarchy argument" with
      hint := some "list it in the call's dependency list instead" }
    return true
  else return false

def refuseTokens : List (Source.Binding × ValueId) → Lower Bool
  | [] => return false
  | (binding, v) :: rest => do
    let refused ← refuseToken binding v
    let others ← refuseTokens rest
    return refused || others

/-- Dependencies, kernel operands and body arguments. -/
def hierarchyOperands (deps ids : List Source.Name) (args : List Source.Binding) :
    Lower (Option (List ValueId × List ValueId × List (Source.Name × ValueType))) := do
  let deps ← resolveAll .token deps
  let operands ← resolveAll .any (args.map (·.outer))
  match deps, operands with
  | some deps, some operands =>
    if ← refuseTokens (args.zip operands) then return none
    else
      let p := (← get).program
      let params := (args.map (·.inner)).zip (operands.map p.valueType)
      return some (deps, operands, ids.map (·, .index) ++ params)
  | _, _ => return none

/-! ## Operations without regions -/

/-- An operation to be added and the types of its results. -/
abbrev Built := Option (OpSpec × List ValueType)

def buildUnary (kind : OpKind) (demand : Demand) (a : Source.Name) : Lower Built := do
  let a ← resolve demand a
  return a.map fun a => ({ kind, operands := [a] }, [])

def buildBinary (kind : OpKind) (demand : Demand) (types : List ValueType) (a b : Source.Name) :
    Lower Built := do
  let operands ← resolveAll demand [a, b]
  return operands.map fun operands => ({ kind, operands }, types)

def buildAlloc (type : Source.TypeExpr) (span : Span) : Lower Built := do
  let type ← lowerType type
  if type.isMemref then return some ({ kind := .alloc }, [type])
  else
    error Code.typeMismatch span "alloc must produce a memref"
    return none

def buildTransform (ins outs : List Source.Name) : Lower Built := do
  let ins ← resolveAll .any ins
  let outs ← resolveAll .any outs
  return do
    let ins ← ins
    let outs ← outs
    return ({ kind := .transform ins.length, operands := ins ++ outs }, [])

def buildApply (args : List Source.Name) : Lower Built := do
  let args ← resolveAll .index args
  return args.map fun operands => ({ kind := .apply, operands }, [.index])

def buildYield (values : List Source.Name) : Lower Built := do
  let values ← resolveAll .any values
  return values.map fun operands => ({ kind := .yield, operands }, [])

def buildJoin (deps : List Source.Name) : Lower Built := do
  let deps ← resolveAll .token deps
  return deps.map fun deps => ({ kind := .join, deps }, [.token])

def buildTransfer (deps : List Source.Name) (dst src : Source.Access) : Lower Built := do
  let deps ← resolveAll .token deps
  let dst ← resolveAccess dst
  let src ← resolveAccess src
  return do
    let deps ← deps
    let (dst, dstOffsets) ← dst
    let (src, srcOffsets) ← src
    return ({ kind := .transfer dstOffsets.length
              operands := dst :: src :: dstOffsets ++ srcOffsets
              deps }, [.token])

/-- A put or get. -/
def buildChannel (kind : OpKind) (deps : List Source.Name) (buffer : Source.Access) :
    Lower Built := do
  let deps ← resolveAll .token deps
  let buffer ← resolveAccess buffer
  return do
    let deps ← deps
    let (base, offsets) ← buffer
    return ({ kind, operands := base :: offsets, deps }, [.token])

/-! ## Statements -/

/-- Adds the operation of `stmt` to `block` and defines its results. -/
def addOp (block : BlockId) (stmt : Source.Stmt) (spec : OpSpec) (types : List ValueType) :
    Lower Unit := do
  let named := stmt.results.length = types.length
  unless named || stmt.results.isEmpty do
    error Code.resultCount stmt.span
      (s!"'{stmt.op.mnemonic}' produces {types.length} result(s), " ++
        s!"{stmt.results.length} name(s) given")
  let names := if named then stmt.results.map fun n => some n.text else types.map fun _ => none
  let op ← build (·.appendOp block { spec with results := names.zip types, span := stmt.span })
  if named then defineAll stmt.results ((← get).program.op op).results

mutual

/-- The operation that a source operation at `span` stands for, or none after an error. -/
def buildOp (span : Span) : Source.Op → Lower Built
  | .const n => return some ({ kind := .const n }, [.index])
  | .alloc type => buildAlloc type span
  | .dealloc buffer => buildUnary .dealloc .memref buffer
  | .copy src dst => buildBinary .copy .memref [] src dst
  | .transform ins outs => buildTransform ins outs
  | .muli a b => buildBinary .muli .index [.index] a b
  | .addi a b => buildBinary .addi .index [.index] a b
  | .apply args => buildApply args
  | .yield values => buildYield values
  | .finish => return some ({ kind := .finish }, [])
  | .join deps => buildJoin deps
  | .transfer deps dst src => buildTransfer deps dst src
  | .put channel deps src => buildChannel (.put channel.text) deps src
  | .get channel deps dst => buildChannel (.get channel.text) deps dst
  | .compute deps (.mk stmts bodySpan) => do
    match ← resolveAll .token deps with
    | none => return none
    | some deps =>
      let body ← inRegion .compute [] bodySpan fun block => lowerStmts block .compute stmts
      return some ({ kind := .compute, deps, regions := [body] },
        .token :: (← yieldedTypes body))
  | .loop kind var lower upper step carried (.mk stmts bodySpan) => do
    match ← loopOperands var lower upper step carried with
    | none => return none
    | some (operands, args) =>
      let body ← inRegion .loop args bodySpan fun block => lowerStmts block .loop stmts
      return some ({ kind := .loop kind, operands, regions := [body] }, args.tail.map (·.2))
  | .branch cond (.mk thenStmts thenSpan) (.mk elseStmts elseSpan) => do
    match ← resolve .index cond with
    | none => return none
    | some cond =>
      let thenBody ← inRegion .branch [] thenSpan fun block =>
        lowerStmts block .branch thenStmts
      let elseBody ← inRegion .branch [] elseSpan fun block =>
        lowerStmts block .branch elseStmts
      let types ← yieldedTypes thenBody
      if types = (← yieldedTypes elseBody) then
        return some ({ kind := .branch, operands := [cond], regions := [thenBody, elseBody] },
          types)
      else
        error Code.typeMismatch span "branches of 'if' yield different types"
        return none
  | .hierarchy level deps ids args (.mk stmts bodySpan) => do
    match ← hierarchyOperands deps ids args with
    | none => return none
    | some (deps, operands, bodyArgs) =>
      let body ← inRegion .hierarchy bodyArgs bodySpan fun block =>
        lowerStmts block .hierarchy stmts
      return some ({ kind := .hierarchy level ids.length, operands, deps, regions := [body] },
        [.token])

def lowerStmt (block : BlockId) : Source.Stmt → Lower Unit
  | .mk results op span => do
    match ← buildOp span op with
    | some (spec, types) => addOp block ⟨results, op, span⟩ spec types
    | none => return

def lowerStmts (block : BlockId) (region : Region) : List Source.Stmt → Lower Unit
  | [] => return
  | stmt :: rest => do
    if allowedIn region rest.isEmpty stmt.op then lowerStmt block stmt
    else
      error Code.misplacedTerminator stmt.span s!"'{stmt.op.mnemonic}' is not allowed here"
    lowerStmts block region rest

end

/-! ## Functions and modules -/

def lowerParams : List Source.Param → Lower (List (Option String × ValueType))
  | [] => return []
  | param :: params => do
    let type ← lowerType param.type
    return (some param.name.text, type) :: (← lowerParams params)

def lowerFunc (f : Source.Func) : Lower Unit := do
  let params ← lowerParams f.params
  let body ← build (·.addFunc f.name.text params)
  inFrame false body (f.params.map (·.name)) do
    lowerStmts body .func f.body.stmts
    closeBody body .func f.body.span

end Lowering

structure Lowered where
  program : Program
  diagnostics : List Diagnostic

def Lowered.hasErrors (l : Lowered) : Bool := l.diagnostics.any Diagnostic.isError

def lower (m : Source.Module) : Lowered :=
  let s := ((m.funcs.forM Lowering.lowerFunc).run ⟨.empty, [], []⟩).2
  ⟨s.program, s.diagnostics⟩

/-- A lexical or syntax error as a diagnostic. -/
def Source.ParseError.diagnostic (e : Source.ParseError) : Diagnostic :=
  .errorAt Code.badSource e.span e.message

/-- The program a text spells, or all objections to the text. -/
def readProgram (source : String) : Except (List Diagnostic) Program :=
  match Source.parse source with
  | ⟨some m, []⟩ =>
    let lowered := lower m
    if lowered.hasErrors then .error lowered.diagnostics else .ok lowered.program
  | ⟨_, errors⟩ => .error (errors.map Source.ParseError.diagnostic)

end AsyncOrder
