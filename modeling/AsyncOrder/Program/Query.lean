import AsyncOrder.Program.Basic

/-!
# Questions about a program

Structure (parents, order inside a block, the walk in document order), uses of values, tokens,
and the arguments of loops and hierarchy calls.

`walk` lists the live operations: an operation is followed by those of its regions, from left to
right, and then by what comes after it in its block.  `useMap` gathers in one walk what `uses`
finds for each value by a walk of its own:

    p.useMap.get v = p.uses v
-/

namespace AsyncOrder

namespace Program

variable (p : Program)

/-! ## Structure -/

/-- The operation of which a value is a result. -/
def definingOp? (v : ValueId) : Option OpId :=
  match (p.value v).origin with
  | .result op _ => some op
  | .arg .. => none

/-- The block of which a value is an argument, and the argument's place. -/
def argOwner? (v : ValueId) : Option (BlockId × Nat) :=
  match (p.value v).origin with
  | .arg block i => some (block, i)
  | .result .. => none

/-- The operation whose region contains `op`. -/
def parentOp? (op : OpId) : Option OpId := (p.block (p.op op).parent).parentOp

def ancestorsUpTo : (limit : Nat) → OpId → List OpId
  | 0, _ => []
  | limit + 1, op =>
    match p.parentOp? op with
    | some parent => parent :: ancestorsUpTo limit parent
    | none => []

/-- Enclosing operations, innermost first. -/
def ancestors (op : OpId) : List OpId := p.ancestorsUpTo p.ops.size op

/-- Place of `op` among the operations of its block. -/
def position? (op : OpId) : Option Nat := (p.block (p.op op).parent).ops.idxOf? op

/-- `a` and `b` stand in one block, `a` first. -/
def isBefore (a b : OpId) : Bool :=
  (p.op a).parent = (p.op b).parent &&
    match p.position? a, p.position? b with
    | some i, some j => i < j
    | _, _ => false

/-- The last operation of a block, if it is a terminator. -/
def terminator? (block : BlockId) : Option OpId :=
  (p.block block).ops.getLast?.filter fun op => (p.kind op).isTerminator

/-- The first region. -/
def body? (op : OpId) : Option BlockId := (p.op op).regions.head?

/-! ## Walks -/

/-- The operations directly in the regions of `op`. -/
def nested (op : OpId) : List OpId := (p.op op).regions.flatMap fun b => (p.block b).ops

/-- The operations of a list, each followed by those in its regions if it `enters` them; one not
to `keep` is left out with all that is in it.  Goes at most `depth` levels deep. -/
def walkFrom (keep enters : OpId → Bool) : (depth : Nat) → List OpId → List OpId
  | 0, _ => []
  | depth + 1, ops =>
    ops.flatMap fun op =>
      if keep op then
        op :: if enters op then walkFrom keep enters depth (p.nested op) else []
      else []

/-- Deep enough for any walk, since no operation lies in itself. -/
def walkDepth : Nat := p.ops.size + 1

/-- Live operations under `block`, in document order. -/
def walkBlock (block : BlockId) : List OpId :=
  p.walkFrom p.isLive (fun _ => true) p.walkDepth (p.block block).ops

/-- Live operations of all functions, in document order. -/
def walk : List OpId := p.funcs.flatMap fun f => p.walkBlock f.body

/-- First live operation with a result called `name`. -/
def opByResultName? (name : String) : Option OpId :=
  p.walk.find? fun op => (p.op op).results.any fun r => (p.value r).name = some name

/-- First value called `name`, in order of creation. -/
def valueByName? (name : String) : Option ValueId :=
  (p.values.findIdx? fun v => v.name = some name).map .mk

def liveCount : Nat := p.walk.length

end Program

/-! ## Uses -/

inductive Slot where
  | operand (i : Nat)
  | dep (i : Nat)
deriving DecidableEq, Repr

/-- One use of a value. -/
structure Use where
  op : OpId
  slot : Slot
deriving DecidableEq, Repr

/-- Operand number of a use as an operand. -/
def Use.operand? (u : Use) : Option Nat :=
  match u.slot with
  | .operand i => some i
  | .dep _ => none

/-- Every value the operation mentions, operands before dependencies. -/
def Operation.mentions (o : Operation) : List (ValueId × Slot) :=
  (o.operands.mapIdx fun i v => (v, .operand i)) ++ (o.deps.mapIdx fun i v => (v, .dep i))

/-- The uses of every value. -/
structure UseMap where
  lists : Array (List Use)

namespace UseMap

def get (m : UseMap) (v : ValueId) : List Use := m.lists[v.index]?.getD []

def add (m : UseMap) (v : ValueId) (u : Use) : UseMap :=
  { m with lists := m.lists.modify v.index (· ++ [u]) }

end UseMap

namespace Program

variable (p : Program)

/-- All uses in document order, each with the value used. -/
def allUses : List (ValueId × Use) :=
  p.walk.flatMap fun op => (p.op op).mentions.map fun m => (m.1, ⟨op, m.2⟩)

/-- Every use of `v`, in document order. -/
def uses (v : ValueId) : List Use :=
  p.allUses.filterMap fun u => if u.1 = v then some u.2 else none

/-- The operations of which `v` is an operand, with the operand's number, in document order. -/
def operandUses (v : ValueId) : List (OpId × Nat) :=
  p.walk.flatMap fun op =>
    (p.op op).operands.zipIdx.filterMap fun (x, i) => if x = v then some (op, i) else none

def isUsed (v : ValueId) : Bool := !(p.uses v).isEmpty

/-- The uses of every value, gathered in one walk. -/
def useMap : UseMap :=
  p.allUses.foldl (fun m u => m.add u.1 u.2) ⟨Array.replicate p.values.size []⟩

/-! ## Tokens -/

/-- The token that stands for the completion of `op`: result 0 of an asynchronous operation, and
result 0 of a loop or conditional when it is a token. -/
def completionToken? (op : OpId) : Option ValueId :=
  match (p.op op).results with
  | [] => none
  | first :: _ =>
    match p.kind op with
    | .loop _ | .branch => if (p.valueType first).isToken then some first else none
    | kind => if kind.isAsync then some first else none

/-- What `op` waits on: the dependencies of an asynchronous operation, the initial tokens of a
loop, the tokens a yield yields. -/
def tokenList (op : OpId) : List ValueId :=
  match p.kind op with
  | .loop _ => ((p.op op).operands.drop 3).filter fun v => (p.valueType v).isToken
  | .yield => (p.op op).operands.filter fun v => (p.valueType v).isToken
  | kind => if kind.isAsync then p.deps op else []

/-! ## Loops -/

/-- First argument of the first region. -/
def inductionVar? (op : OpId) : Option ValueId :=
  (p.body? op).bind fun b => (p.block b).args.head?

/-- The body argument that carries value `slot` of a loop around. -/
def carriedArg? (op : OpId) (slot : Nat) : Option ValueId :=
  if (p.kind op).isLoop then (p.body? op).bind fun b => (p.block b).args[slot + 1]? else none

/-- Initial value of what a loop carries in `slot`. -/
def loopInit? (op : OpId) (slot : Nat) : Option ValueId := (p.op op).operands[slot + 3]?

/-- The loop that carries `v` around. -/
def carriedOwner? (v : ValueId) : Option OpId :=
  match p.argOwner? v with
  | some (block, i) =>
    (p.block block).parentOp.filter fun owner => (p.kind owner).isLoop && 1 ≤ i
  | none => none

/-- The terminator of the first region. -/
def loopYield? (op : OpId) : Option OpId := (p.body? op).bind p.terminator?

/-! ## Hierarchy calls -/

/-- The kernel operands of a call, each with the parameter that receives it. -/
def hierarchyPairs (op : OpId) : List (ValueId × ValueId) :=
  match p.kind op, p.body? op with
  | .hierarchy _ ids, some body => (p.op op).operands.zip ((p.block body).args.drop ids)
  | _, _ => []

/-- The id arguments of a call. -/
def hierarchyIds (op : OpId) : List ValueId :=
  match p.kind op, p.body? op with
  | .hierarchy _ ids, some body => (p.block body).args.take ids
  | _, _ => []

/-- The call of which `v` is an argument, how many ids it has, and the argument's place. -/
def hierarchyArg? (v : ValueId) : Option (OpId × Nat × Nat) :=
  match p.argOwner? v with
  | none => none
  | some (block, i) =>
    match (p.block block).parentOp with
    | none => none
    | some owner =>
      match p.kind owner with
      | .hierarchy _ ids => some (owner, ids, i)
      | _ => none

/-- The call of which `v` is a parameter, and the number of its pair. -/
def paramOwner? (v : ValueId) : Option (OpId × Nat) :=
  match p.hierarchyArg? v with
  | some (owner, ids, i) => if ids ≤ i then some (owner, i - ids) else none
  | none => none

def isHierarchyId (v : ValueId) : Bool :=
  match p.hierarchyArg? v with
  | some (_, ids, i) => i < ids
  | none => false

/-! ## Constants and channels -/

def constValue? (v : ValueId) : Option Int :=
  match (p.definingOp? v).map p.kind with
  | some (.const n) => some n
  | _ => none

/-- Live puts on a channel. -/
def puts (channel : String) : List OpId := p.walk.filter fun op => p.kind op = .put channel

/-- Live gets on a channel. -/
def gets (channel : String) : List OpId := p.walk.filter fun op => p.kind op = .get channel

/-- The channels in use, without repetition, in order of first use. -/
def channels : List String := (p.walk.filterMap fun op => (p.kind op).channel?).eraseDups

end Program

end AsyncOrder
