import AsyncOrder.IndexSet
import AsyncOrder.Text.Span
import AsyncOrder.Program.Kind

/-!
# Programs

A program is an arena of operations, values and blocks, each addressed by its position, and a
list of functions.  A block lists its operations in order; an operation owns its regions, each
a single block.  Entities are only ever added at the end of their table, so an id stays good:
an operation that is taken out keeps its place and is marked `erased`.

An id that names nothing reads as an erased operation, an index value or an empty block.
-/

namespace AsyncOrder

structure OpId where
  index : Nat
deriving DecidableEq, Repr

structure ValueId where
  index : Nat
deriving DecidableEq, Repr

structure BlockId where
  index : Nat
deriving DecidableEq, Repr

instance : Indexed OpId := ⟨OpId.index, congrArg OpId.mk⟩

instance : Indexed ValueId := ⟨ValueId.index, congrArg ValueId.mk⟩

/-- Where a value comes from. -/
inductive Origin where
  | result (op : OpId) (index : Nat)
  | arg (block : BlockId) (index : Nat)
deriving DecidableEq, Repr

structure Value where
  type : ValueType
  origin : Origin
  name : Option String
deriving DecidableEq, Repr

structure Operation where
  kind : OpKind
  operands : List ValueId
  /-- Tokens an asynchronous operation waits on. -/
  deps : List ValueId
  results : List ValueId
  regions : List BlockId
  /-- The block that lists the operation. -/
  parent : BlockId
  span : Option Span
  erased : Bool
deriving DecidableEq, Repr

structure Block where
  args : List ValueId
  ops : List OpId
  /-- The operation of which the block is a region; none for function bodies. -/
  parentOp : Option OpId
deriving DecidableEq, Repr

structure Func where
  name : String
  body : BlockId
deriving DecidableEq, Repr

structure Program where
  ops : Array Operation
  values : Array Value
  blocks : Array Block
  funcs : List Func
deriving DecidableEq, Repr

namespace Program

def empty : Program := ⟨#[], #[], #[], []⟩

/-! ## Entities -/

def op (p : Program) (id : OpId) : Operation :=
  p.ops[id.index]?.getD ⟨.finish, [], [], [], [], ⟨0⟩, none, true⟩

def value (p : Program) (id : ValueId) : Value :=
  p.values[id.index]?.getD ⟨.index, .arg ⟨0⟩ 0, none⟩

def block (p : Program) (id : BlockId) : Block :=
  p.blocks[id.index]?.getD ⟨[], [], none⟩

def kind (p : Program) (id : OpId) : OpKind := (p.op id).kind

def deps (p : Program) (id : OpId) : List ValueId := (p.op id).deps

def valueType (p : Program) (id : ValueId) : ValueType := (p.value id).type

def isLive (p : Program) (id : OpId) : Bool := !(p.op id).erased

/-- The name shown for a value; one without a name is called by its number. -/
def valueName (p : Program) (id : ValueId) : String :=
  (p.value id).name.getD s!"_{id.index}"

/-! ## Changing one entity -/

def modifyOp (p : Program) (id : OpId) (f : Operation → Operation) : Program :=
  { p with ops := p.ops.modify id.index f }

def modifyValue (p : Program) (id : ValueId) (f : Value → Value) : Program :=
  { p with values := p.values.modify id.index f }

def modifyBlock (p : Program) (id : BlockId) (f : Block → Block) : Program :=
  { p with blocks := p.blocks.modify id.index f }

/-! ## Construction -/

/-- Adds one value per name and type, the `i`-th with origin `origin i`. -/
def addValues (p : Program) (origin : Nat → Origin) (specs : List (Option String × ValueType)) :
    List ValueId × Program :=
  ((List.range' p.values.size specs.length).map .mk,
    { p with values :=
        p.values ++ (specs.mapIdx fun i spec => ⟨spec.2, origin i, spec.1⟩).toArray })

/-- Adds a block with the given arguments that belongs to no operation yet. -/
def addBlock (p : Program) (args : List (Option String × ValueType)) : BlockId × Program :=
  let id : BlockId := ⟨p.blocks.size⟩
  let (args, p) := p.addValues (.arg id) args
  (id, { p with blocks := p.blocks.push ⟨args, [], none⟩ })

/-- Adds a function whose body has the given arguments. -/
def addFunc (p : Program) (name : String) (args : List (Option String × ValueType)) :
    BlockId × Program :=
  let (body, p) := p.addBlock args
  (body, { p with funcs := p.funcs ++ [⟨name, body⟩] })

end Program

/-- An operation to be added. -/
structure OpSpec where
  kind : OpKind
  operands : List ValueId := []
  deps : List ValueId := []
  results : List (Option String × ValueType) := []
  regions : List BlockId := []
  span : Option Span := none

/-- Adds an operation at the end of `block`; it becomes the owner of its regions. -/
def Program.appendOp (p : Program) (block : BlockId) (spec : OpSpec) : OpId × Program :=
  let id : OpId := ⟨p.ops.size⟩
  let (results, p) := p.addValues (.result id) spec.results
  let p := spec.regions.foldl
    (fun p region => p.modifyBlock region fun b => { b with parentOp := some id }) p
  let o : Operation :=
    ⟨spec.kind, spec.operands, spec.deps, results, spec.regions, block, spec.span, false⟩
  let p := { p with ops := p.ops.push o }
  (id, p.modifyBlock block fun b => { b with ops := b.ops ++ [id] })

end AsyncOrder
