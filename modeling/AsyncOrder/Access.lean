import AsyncOrder.Program.Query
import AsyncOrder.Search

/-!
# Memory accesses

A partial reference says which part of a buffer an operand touches: per dimension a constant, a
run-time value, or all of it.  Two references to one buffer are apart only where two constants
differ:

    overlaps a b ↔ same base, and (ranks differ, or no dimension holds two different constants)

`classify` finds how a buffer is used, through the parameters of hierarchy calls it is passed
to; `accesses` splits the operands of an asynchronous operation into what it reads, what it
writes and its scalars.
-/

namespace AsyncOrder

/-! ## Partial references -/

/-- Which part of one dimension is meant. -/
inductive Extent where
  | const (n : Int)
  | dynamic (v : ValueId)
  | whole
deriving DecidableEq, Repr

structure PartialRef where
  base : ValueId
  indices : List Extent
deriving DecidableEq, Repr

/-- Two different constants. -/
def Extent.apart : Extent → Extent → Bool
  | const m, const n => m ≠ n
  | _, _ => false

namespace PartialRef

def whole (base : ValueId) (rank : Nat) : PartialRef := ⟨base, List.replicate rank .whole⟩

def rank (r : PartialRef) : Nat := r.indices.length

/-- The run-time values among the indices. -/
def dynamicIndices (r : PartialRef) : List ValueId :=
  r.indices.filterMap fun
    | .dynamic v => some v
    | _ => none

/-- May the two touch a common element? -/
def overlaps (a b : PartialRef) : Bool :=
  a.base = b.base &&
    (a.rank ≠ b.rank || !(a.indices.zip b.indices).any fun (x, y) => x.apart y)

end PartialRef

namespace Program

variable (p : Program)

def extentOf (v : ValueId) : Extent :=
  match p.constValue? v with
  | some n => .const n
  | none => .dynamic v

/-- The part of `base` at `offsets`; without offsets all of it. -/
def refAt (base : ValueId) (offsets : List ValueId) : PartialRef :=
  if offsets.isEmpty then .whole base ((p.valueType base).rank?.getD 0)
  else ⟨base, offsets.map p.extentOf⟩

end Program

/-! ## Operands -/

/-- The offsets that go with operand `i`. -/
def Operation.offsets (o : Operation) (i : Nat) : List ValueId :=
  match o.kind, i with
  | .transfer dstOffsets, 0 => (o.operands.drop 2).take dstOffsets
  | .transfer dstOffsets, 1 => o.operands.drop (2 + dstOffsets)
  | .put _, 0 | .get _, 0 => o.operands.drop 1
  | _, _ => []

namespace Program

variable (p : Program)

/-- What operand `i` of `op`, which is `v`, refers to. -/
def operandRef (op : OpId) (i : Nat) (v : ValueId) : PartialRef :=
  p.refAt v ((p.op op).offsets i)

/-- The parameters of hierarchy calls that receive `v`. -/
def receivers (v : ValueId) : List ValueId :=
  (p.operandUses v).filterMap fun (op, i) => ((p.hierarchyPairs op)[i]?).map (·.2)

/-- The roles in which `v` is an operand of anything but hierarchy calls. -/
def directRoles (v : ValueId) : List Role :=
  (p.operandUses v).filterMap fun (op, i) =>
    let o := p.op op
    if o.kind.isHierarchy then none else some (o.kind.operandRole i o.operands.length)

/-- `read` if `v` is read somewhere and written nowhere, else `write`; parameters that receive
`v` count. -/
def classify (v : ValueId) : Role :=
  let roles := (visit p.receivers p.values.size [v] .empty).flatMap p.directRoles
  if roles.any Role.writes || !roles.any (· = .read) then .write else .read

/-- Role of operand `i` of `op`.  A kernel operand has the role of its parameter. -/
def operandRole (op : OpId) (i : Nat) : Role :=
  let o := p.op op
  if o.kind.isHierarchy then
    match (p.hierarchyPairs op)[i]? with
    | some (_, inner) => if (p.valueType inner).isMemref then p.classify inner else .scalar
    | none => .unknown
  else o.kind.operandRole i o.operands.length

end Program

/-! ## Accesses of an operation -/

structure Accesses where
  reads : List PartialRef
  writes : List PartialRef
  scalarIns : List ValueId
  scalarOuts : List ValueId
deriving DecidableEq, Repr

namespace Program

variable (p : Program)

/-- The operations that `sink` performs: for a compute those of its body. -/
def performed (sink : OpId) : List OpId :=
  if p.kind sink = .compute then ((p.body? sink).map p.walkBlock).getD [] else [sink]

/-- The buffers among the operands of `op`, with their roles. -/
def bufferRefs (op : OpId) : List (Role × PartialRef) :=
  (p.op op).operands.zipIdx.filterMap fun (v, i) =>
    if (p.valueType v).isMemref then some (p.operandRole op i, p.operandRef op i v) else none

/-- The buffers among the results of `op`. -/
def resultRefs (op : OpId) : List PartialRef :=
  (p.op op).results.filterMap fun v => (p.valueType v).rank?.map (PartialRef.whole v)

def scalars (vs : List ValueId) : List ValueId :=
  vs.filter fun v => !(p.valueType v).isMemref && !(p.valueType v).isToken

/-- What `sink` accesses, each once.  A buffer made inside a compute body is written; the results
of `sink` itself are no accesses. -/
def accesses (sink : OpId) : Accesses :=
  let performed := p.performed sink
  let made (vs : OpId → List PartialRef) (op : OpId) := if op = sink then [] else vs op
  { reads := (performed.flatMap fun op =>
      (p.bufferRefs op).filterMap fun (role, r) => if role.reads then some r else none).eraseDups
    writes := (performed.flatMap fun op =>
      ((p.bufferRefs op).filterMap fun (role, r) => if role.writes then some r else none) ++
        made p.resultRefs op).eraseDups
    scalarIns := (performed.flatMap fun op => p.scalars (p.op op).operands).eraseDups
    scalarOuts := (performed.flatMap fun op =>
      if op = sink then [] else p.scalars (p.op op).results).eraseDups }

end Program

end AsyncOrder
