import AsyncOrder.Program.Basic
import AsyncOrder.Scope.Vertex
import AsyncOrder.Digraph
import AsyncOrder.Tree

/-!
# Scopes

A scope is one nesting level of a program: the bodies of all functions together, or the body of
one hierarchy call.  Its vertices are the asynchronous events that happen directly in it, its
edges say what comes before what.  Vertex 0 is where the scope starts.  The scopes of a program
form a tree, in which the children of a scope belong to its hierarchy calls.
-/

namespace AsyncOrder

inductive ScopeKind where
  /-- The outermost scope. -/
  | host
  | body (level : Level)
deriving DecidableEq, Repr

namespace ScopeKind

def text : ScopeKind → String
  | host => "host"
  | body level => level.text

def all : List ScopeKind := [host, body .launch, body .segment, body .herd]

def ofText? (s : String) : Option ScopeKind := all.find? fun k => k.text == s

/-- Name of a scope of this kind at `path`: `host`, `launch_1`, `herd_1.2.1`. -/
def nameAt (kind : ScopeKind) (path : Path) : String :=
  let numbers := path.map fun i => toString (i + 1)
  if path.isEmpty then kind.text else kind.text ++ "_" ++ ".".intercalate numbers

end ScopeKind

/-- What a vertex has to do with a neighbouring scope. -/
inductive Link where
  /-- A hierarchy call and its child scope. -/
  | child (i : Nat)
  /-- A terminator and the call, a vertex of the parent scope. -/
  | parent (call : Nat)
deriving DecidableEq, Repr

structure Vertex where
  key : Key
  label : String
  /-- The operation behind the vertex; of the vertices of a compute only the first has one. -/
  op : Option OpId
  /-- The operation of whose completion the vertex is a part. -/
  owner : Option OpId
  link : Option Link
deriving DecidableEq, Repr

structure Scope where
  kind : ScopeKind
  /-- The call of which the scope is the body. -/
  call : Option OpId
  vertices : List Vertex
  edges : List (Nat × Nat)
  terminator : Option Nat
deriving DecidableEq, Repr

namespace Scope

variable (s : Scope)

/-- Vertex 0 of every scope. -/
def start : Nat := 0

def size : Nat := s.vertices.length

def graph : Digraph := ⟨s.size, s.edges⟩

def indices : List Nat := List.range s.size

def vertexKind? (v : Nat) : Option VertexKind := (s.vertices[v]?).map (·.key.kind)

/-- The operation behind a vertex. -/
def op? (v : Nat) : Option OpId := (s.vertices[v]?).bind (·.op)

def link? (v : Nat) : Option Link := (s.vertices[v]?).bind (·.link)

/-- The hierarchy calls. -/
def calls : List Nat := s.indices.filter fun v => s.vertexKind? v = some .hierarchyCall

def find? (key : Key) : Option Nat := s.vertices.findIdx? fun v => v.key = key

/-- Adds the edges that are missing. -/
def addEdges (es : List (Nat × Nat)) : Scope := { s with edges := (s.graph.addEdges es).edges }

/-- Sets the link of one vertex. -/
def setLink (v : Nat) (link : Link) : Scope :=
  { s with vertices := s.vertices.modify v fun x => { x with link := some link } }

/-! ## Edges by key -/

/-- An edge as the keys of its ends. -/
def keysOf? (e : Nat × Nat) : Option (Key × Key) :=
  match s.vertices[e.1]?, s.vertices[e.2]? with
  | some a, some b => some (a.key, b.key)
  | _, _ => none

/-- Pairs of keys in ascending order of the first, then of the second. -/
def edgeKeyLe (a b : Key × Key) : Bool := if a.1 = b.1 then a.2.le b.2 else a.1.le b.1

/-- The edges as pairs of keys, ascending and without repetition. -/
def edgeKeys : List (Key × Key) :=
  ((s.edges.filterMap s.keysOf?).mergeSort edgeKeyLe).eraseDups

end Scope

abbrev ScopeTree := Tree Scope

/-- Numbers of vertices and edges in all scopes. -/
def Tree.totals (t : ScopeTree) : Nat × Nat :=
  t.toList.foldl (fun (v, e) s => (v + s.size, e + s.edges.length)) (0, 0)

end AsyncOrder
