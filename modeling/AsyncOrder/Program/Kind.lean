/-!
# Value types and operation kinds

The closed vocabulary of programs.  An operation kind fixes the layout of the operands and
what the operation does with each of them (`OpKind.operandRole`):

    transfer     dst, src, dst offsets, src offsets
    put          src, offsets                    get        dst, offsets
    copy         src, dst                        transform  ins, outs
    loop         lower, upper, step, initial values
                 body arguments: induction variable, carried values
    branch       condition                       regions: then, else
    hierarchy    kernel operands                 body arguments: ids, parameters
-/

namespace AsyncOrder

/-! ## Types -/

/-- Memory level a buffer lives in. -/
inductive MemorySpace where
  | l1 | l2 | l3
deriving DecidableEq, Repr

namespace MemorySpace

def text : MemorySpace → String
  | l1 => "L1"
  | l2 => "L2"
  | l3 => "L3"

def ofText? (s : String) : Option MemorySpace :=
  [l1, l2, l3].find? fun m => m.text == s

end MemorySpace

inductive ValueType where
  /-- Completion handle of an asynchronous operation. -/
  | token
  /-- Scalar index. -/
  | index
  /-- Buffer of a fixed rank. -/
  | memref (rank : Nat) (space : MemorySpace)
deriving DecidableEq, Repr

namespace ValueType

def isToken : ValueType → Bool
  | token => true
  | _ => false

def isMemref : ValueType → Bool
  | memref .. => true
  | _ => false

def rank? : ValueType → Option Nat
  | memref rank _ => some rank
  | _ => none

def space? : ValueType → Option MemorySpace
  | memref _ space => some space
  | _ => none

def text : ValueType → String
  | token => "token"
  | index => "index"
  | memref rank space => s!"memref<{rank}, {space.text}>"

end ValueType

/-! ## Operation kinds -/

/-- Nesting level of a hierarchy call, outermost first. -/
inductive Level where
  | launch | segment | herd
deriving DecidableEq, Repr

def Level.text : Level → String
  | launch => "launch"
  | segment => "segment"
  | herd => "herd"

/-- The level as part of a label. -/
def Level.title : Level → String
  | launch => "Launch"
  | segment => "Segment"
  | herd => "Herd"

inductive LoopKind where
  | sequential | parallel
deriving DecidableEq, Repr

def LoopKind.text : LoopKind → String
  | sequential => "for"
  | parallel => "parallel"

/-- How an operation uses one of its operands. -/
inductive Role where
  | read
  | write
  | readWrite
  /-- Scalar input: index, bound or offset. -/
  | scalar
  /-- Depends on what surrounds the operation (kernel operands, yielded values). -/
  | unknown
deriving DecidableEq, Repr

namespace Role

def reads : Role → Bool
  | read | readWrite | unknown => true
  | _ => false

def writes : Role → Bool
  | write | readWrite | unknown => true
  | _ => false

end Role

inductive OpKind where
  | const (value : Int)
  | alloc
  | dealloc
  | copy
  /-- The first `ins` operands are inputs, the others outputs. -/
  | transform (ins : Nat)
  | muli
  | addi
  | apply
  /-- Ends a compute, loop or branch body. -/
  | yield
  | compute
  | transfer (dstOffsets : Nat)
  | put (channel : String)
  | get (channel : String)
  | join
  | loop (kind : LoopKind)
  | branch
  /-- The first `ids` body arguments are ids, the others parameters. -/
  | hierarchy (level : Level) (ids : Nat)
  /-- Ends a hierarchy body. -/
  | finish
deriving DecidableEq, Repr

namespace OpKind

/-- Such operations produce a completion token and wait on a list of tokens. -/
def isAsync : OpKind → Bool
  | compute | transfer _ | put _ | get _ | join | hierarchy .. => true
  | _ => false

/-- The kinds a compute body may hold. -/
def isComputePrimitive : OpKind → Bool
  | const _ | alloc | dealloc | copy | transform _ | muli | addi | apply | yield => true
  | _ => false

/-- Primitives that leave memory as it was. -/
def isSideEffectFree : OpKind → Bool
  | const _ | alloc | muli | addi | apply | yield => true
  | _ => false

def isTerminator : OpKind → Bool
  | yield | finish => true
  | _ => false

def isLoop : OpKind → Bool
  | loop _ => true
  | _ => false

def isHierarchy : OpKind → Bool
  | hierarchy .. => true
  | _ => false

/-- Role of operand `i` out of `count`. -/
def operandRole (kind : OpKind) (i count : Nat) : Role :=
  match kind with
  | dealloc => .readWrite
  | copy => if i = 0 then .read else .readWrite
  | transform ins => if i < ins then .read else .readWrite
  | transfer _ => if i = 0 then .write else if i = 1 then .read else .scalar
  | put _ => if i = 0 then .read else .scalar
  | get _ => if i = 0 then .write else .scalar
  | muli | addi | apply | branch => .scalar
  | loop _ => if i < 3 || count ≤ i then .scalar else .unknown
  | hierarchy .. | yield | const _ | alloc | compute | join | finish => .unknown

/-- Name of the operation in graphs and messages. -/
def label : OpKind → String
  | const _ => "ConstOp"
  | alloc => "AllocOp"
  | dealloc => "DeallocOp"
  | copy => "CopyOp"
  | transform _ => "TransformOp"
  | muli => "MulIOp"
  | addi => "AddIOp"
  | apply => "ApplyOp"
  | yield => "YieldOp"
  | compute => "ComputeOp"
  | transfer _ => "TransferOp"
  | put channel => s!"ChannelPutOp@{channel}"
  | get channel => s!"ChannelGetOp@{channel}"
  | join => "JoinOp"
  | loop .sequential => "ForOp"
  | loop .parallel => "ParallelOp"
  | branch => "IfOp"
  | hierarchy level _ => s!"{level.title}Op"
  | finish => "EndOp"

/-- Channel of a put or get. -/
def channel? : OpKind → Option String
  | put channel | get channel => some channel
  | _ => none

end OpKind

end AsyncOrder
