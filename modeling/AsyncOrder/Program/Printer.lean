import AsyncOrder.Program.Query

/-!
# Program text

`Program.text` writes a program in the form the parser reads, one operation a line, two blanks
of indentation per nesting level.  Terminators that the reader would supply are written too.
-/

namespace AsyncOrder.Program

variable (p : Program)

def ref (v : ValueId) : String := s!"%{p.valueName v}"

def refs (vs : List ValueId) : String := ", ".intercalate (vs.map p.ref)

/-- The dependency list, with a blank in front; nothing when it is empty. -/
def depsText (deps : List ValueId) : String :=
  if deps.isEmpty then "" else s!" [{p.refs deps}]"

def accessText (base : ValueId) (offsets : List ValueId) : String :=
  if offsets.isEmpty then p.ref base else s!"{p.ref base}[{p.refs offsets}]"

/-- The access that the first of `operands` is the base of and the others offset. -/
def accessOf : List ValueId → String
  | [] => ""
  | base :: offsets => p.accessText base offsets

def bindingsText (pairs : List (ValueId × ValueId)) : String :=
  ", ".intercalate (pairs.map fun (inner, outer) => s!"{p.ref inner} = {p.ref outer}")

/-- `word(list)` with a blank in front; nothing when the list is empty. -/
def clause (word : String) (list : String) : String :=
  if list.isEmpty then "" else s!" {word}({list})"

def transferText (dstOffsets : Nat) : List ValueId → String
  | dst :: src :: offsets =>
    let dstText := p.accessText dst (offsets.take dstOffsets)
    let srcText := p.accessText src (offsets.drop dstOffsets)
    s!"{dstText} <- {srcText}"
  | _ => ""

/-- `%i = %lower to %upper step %step` with the carried values. -/
def loopHead (operands args : List ValueId) : String :=
  match operands, args with
  | lower :: upper :: step :: inits, var :: carried =>
    s!"{p.ref var} = {p.ref lower} to {p.ref upper} step {p.ref step}" ++
      clause "iter" (p.bindingsText (carried.zip inits))
  | _, _ => ""

/-- The operation without its results and without the bodies of its regions. -/
def headText (op : OpId) : String :=
  let o := p.op op
  let deps := p.depsText o.deps
  match o.kind with
  | .const n => s!"const {n}"
  | .alloc => "alloc : " ++ ((o.results.head?.map fun r => (p.valueType r).text).getD "")
  | .dealloc => s!"dealloc {p.refs o.operands}"
  | .copy => s!"copy {p.refs o.operands}"
  | .transform ins =>
    let inputs := p.refs (o.operands.take ins)
    let outputs := p.refs (o.operands.drop ins)
    s!"transform ins({inputs}) outs({outputs})"
  | .muli => s!"muli {p.refs o.operands}"
  | .addi => s!"addi {p.refs o.operands}"
  | .apply => s!"apply({p.refs o.operands})"
  | .yield => if o.operands.isEmpty then "yield" else s!"yield {p.refs o.operands}"
  | .finish => "end"
  | .join => s!"join{deps}"
  | .compute => s!"compute{deps}"
  | .transfer dstOffsets => s!"transfer{deps} {p.transferText dstOffsets o.operands}"
  | .put channel => s!"put @{channel}{deps} {p.accessOf o.operands}"
  | .get channel => s!"get @{channel}{deps} {p.accessOf o.operands}"
  | .loop kind =>
    let args := ((p.body? op).map fun b => (p.block b).args).getD []
    s!"{kind.text} {p.loopHead o.operands args}"
  | .branch => s!"if {p.refs o.operands}"
  | .hierarchy level _ =>
    s!"{level.text}{deps}" ++ clause "ids" (p.refs (p.hierarchyIds op)) ++
      clause "args" (p.bindingsText ((p.hierarchyPairs op).map fun (outer, inner) => (inner, outer)))

/-- What introduces the regions of an operation, in order. -/
def regionHeads : OpKind → List String
  | .compute | .loop _ | .hierarchy .. => [" \x7b\n"]
  | .branch => [" \x7b\n", "\x7d else \x7b\n"]
  | _ => []

/-- Two blanks per level. -/
def indent (level : Nat) : String := String.join (List.replicate level "  ")

def opTextUpTo : (depth : Nat) → (level : Nat) → OpId → String
  | 0, _, _ => ""
  | depth + 1, level, op =>
    let o := p.op op
    let results := if o.results.isEmpty then "" else s!"{p.refs o.results} = "
    let heads := regionHeads o.kind
    let body := fun (b : BlockId) =>
      String.join ((p.block b).ops.map (opTextUpTo depth (level + 1)))
    let bodies := (heads.zip o.regions).mapIdx fun i (head, region) =>
      (if i = 0 then "" else indent level) ++ head ++ body region
    indent level ++ results ++ p.headText op ++ String.join bodies ++
      (if heads.isEmpty then "\n" else indent level ++ "\x7d\n")

/-- The lines of a block's operations. -/
def blockText (level : Nat) (b : BlockId) : String :=
  String.join ((p.block b).ops.map (p.opTextUpTo (p.blocks.size + 1) level))

def funcText (f : Func) : String :=
  let params := ", ".intercalate <|
    (p.block f.body).args.map fun a => s!"{p.ref a}: {(p.valueType a).text}"
  s!"func @{f.name}({params}) \x7b\n" ++ p.blockText 1 f.body ++ "\x7d\n"

/-- Functions are separated by an empty line. -/
def text : String := "\n".intercalate (p.funcs.map p.funcText)

end AsyncOrder.Program
