import AsyncOrder.Program.Query
import AsyncOrder.Scope.Context
import AsyncOrder.Diagnostic.Failure

/-!
# The scope tree of a program

The members of a scope are the operations directly in it, those in loops and conditionals
included, in document order.  Each member brings its events: a compute one for each operation of
its body, in a chain; a conditional, a yield that ends no loop, and an operation that is not
asynchronous none; any other one.  A hierarchy call is followed by the scope of its body.

    vertices = start :: members.flatMap events
    edges    = the chains of the computes
-/

namespace AsyncOrder

/-! ## Events -/

/-- A vertex without its key. -/
structure Event where
  kind : VertexKind
  label : String
  op : Option OpId
  owner : Option OpId
deriving DecidableEq, Repr

namespace Program

variable (p : Program)

/-- The live operations under `blocks` that belong to the same scope. -/
def members (blocks : List BlockId) : List OpId :=
  let enters := fun op => (p.kind op).isLoop || p.kind op = .branch
  p.walkFrom p.isLive enters p.walkDepth (blocks.flatMap fun b => (p.block b).ops)

/-- Memory space of the buffer of a put or get. -/
def bufferSpaceText (op : OpId) : String :=
  match (p.op op).operands.head?.bind fun v => (p.valueType v).space? with
  | some space => space.text
  | none => "?"

/-- Memory space at the other end of a channel, if there is just one operation. -/
def partnerSpaceText : List OpId → String
  | [partner] => p.bufferSpaceText partner
  | _ => "?"

/-- Label of a put or get, with the memory spaces at both ends. -/
def channelLabel (op : OpId) : String :=
  let kind := p.kind op
  let here := p.bufferSpaceText op
  match kind with
  | .put channel => s!"{kind.label}({here}-->{p.partnerSpaceText (p.gets channel)})"
  | .get channel => s!"{kind.label}({here}<--{p.partnerSpaceText (p.puts channel)})"
  | _ => kind.label

/-- The operations directly in the body of a compute. -/
def computeBody (op : OpId) : List OpId :=
  ((p.body? op).map fun b => (p.block b).ops).getD []

/-- One event per operation of the body; the first stands for the compute.  An empty body makes
one event as well. -/
def computeEvents (op : OpId) : List Event :=
  match p.computeBody op with
  | [] => [⟨.compute, OpKind.compute.label, some op, some op⟩]
  | first :: rest =>
    ⟨.compute, (p.kind first).label, some op, some op⟩ ::
      rest.map fun o => ⟨.compute, (p.kind o).label, none, some op⟩

def endLabel : ScopeKind → String
  | .host => OpKind.finish.label
  | .body level => s!"{level.title}Terminator"

/-- Does `op` stand directly in a loop? -/
def inLoop (op : OpId) : Bool := ((p.parentOp? op).map fun o => (p.kind o).isLoop).getD false

/-- The events of `op` in a scope of the given kind. -/
def events (scope : ScopeKind) (op : OpId) : List Event :=
  let kind := p.kind op
  let single (vertex : VertexKind) (label : String) : List Event :=
    [⟨vertex, label, some op, some op⟩]
  match kind with
  | .compute => p.computeEvents op
  | .transfer _ => single .transfer kind.label
  | .put _ | .get _ => single .channel (p.channelLabel op)
  | .join => single .barrier kind.label
  | .loop _ => single .controlLoop kind.label
  | .yield => if p.inLoop op then single .terminator kind.label else []
  | .finish => single .hierarchyTerminator (endLabel scope)
  | .hierarchy .. => single .hierarchyCall kind.label
  | .branch | .const _ | .alloc | .dealloc | .copy | .transform _ | .muli | .addi | .apply => []

/-- The first operation in the body of a compute that is no primitive. -/
def foreign? (op : OpId) : Option OpId :=
  if p.kind op = .compute then
    (p.computeBody op).find? fun o => !(p.kind o).isComputePrimitive
  else none

end Program

/-! ## Scopes in the making -/

/-- A scope with the children and the context made so far. -/
structure Draft where
  scope : Scope
  children : List ScopeTree
  context : Context

namespace Draft

/-- Adds a vertex for an event, under the next key of its kind. -/
def addEvent (path : Path) (d : Draft) (e : Event) : Draft :=
  let (key, counters) := d.context.counters.alloc e.kind
  { d with
    scope := { d.scope with
      vertices := d.scope.vertices ++ [⟨key, e.label, e.op, e.owner, none⟩] }
    context := { d.context with
      counters
      places := (key, path, d.scope.size) :: d.context.places } }

/-- A scope that has nothing but its start. -/
def bare (kind : ScopeKind) (call : Option OpId) (path : Path) (context : Context) : Draft :=
  addEvent path ⟨⟨kind, call, [], [], none⟩, [], context⟩ ⟨.start, "start", none, none⟩

/-- Enters the first and the last of the vertices from `first` on as the ends of `op`. -/
def addEnds (op : OpId) (first : Nat) (d : Draft) : Draft :=
  match (d.scope.vertices.drop first).head?, d.scope.vertices.getLast? with
  | some entry, some exit =>
    { d with context := { d.context with
        ends := (op, entry.key, exit.key) :: d.context.ends } }
  | _, _ => d

/-- Adds the events of `op` as a chain.  Its vertices are new, so its edges are. -/
def addOp (path : Path) (d : Draft) (op : OpId) (events : List Event) : Draft :=
  let first := d.scope.size
  let d := events.foldl (addEvent path) d
  let chain := (List.range' first (events.length - 1)).map fun v => (v, v + 1)
  addEnds op first { d with scope := { d.scope with edges := d.scope.edges ++ chain } }

/-- The vertex added last ends the scope. -/
def markTerminator (d : Draft) : Draft :=
  { d with scope := { d.scope with terminator := some (d.scope.size - 1) } }

end Draft

namespace Program

variable (p : Program)

/-- Adds a member to a scope; `inner` makes the scope of the body of a hierarchy call. -/
def addMember (inner : Level → OpId → Path → Context → Except Failure (ScopeTree × Context))
    (path : Path) (d : Draft) (op : OpId) : Except Failure Draft :=
  match p.foreign? op with
  | some bad => .error (.unknownOpInCompute bad (p.kind bad).label (p.op bad).span)
  | none =>
    let d := d.addOp path op (p.events d.scope.kind op)
    match p.kind op with
    | .finish => .ok d.markTerminator
    | .hierarchy level _ => do
      let (child, context) ← inner level op (path ++ [d.children.length]) d.context
      return { d with children := d.children ++ [child], context }
    | _ => .ok d

/-- The scope of `blocks` and those below it, at most `depth` levels. -/
def buildScope : (depth : Nat) → ScopeKind → (call : Option OpId) → List BlockId → Path →
    Context → Except Failure (ScopeTree × Context)
  | 0, kind, call, _, path, context =>
    let d := Draft.bare kind call path context
    .ok (.node d.scope [], d.context)
  | depth + 1, kind, call, blocks, path, context => do
    let inner := fun level op path context =>
      buildScope depth (.body level) (some op) (p.body? op).toList path context
    let d ← (p.members blocks).foldlM (p.addMember inner path) (.bare kind call path context)
    return (.node d.scope d.children, d.context)

/-- The scopes of the program and where their vertices are.  Hierarchy calls nest no deeper than
there are operations. -/
def scopeTree : Except Failure (ScopeTree × Context) :=
  p.buildScope (p.ops.size + 1) .host none (p.funcs.map (·.body)) [] .empty

end Program

end AsyncOrder
