import AsyncOrder.Program.Query
import AsyncOrder.Scope.Basic
import AsyncOrder.Diagnostic.Failure

/-!
# Drawings

Scopes in the DOT language.  `Scope.dot` draws one scope.  `Tree.dot` draws all of them, each in
a cluster, with a dotted edge from every hierarchy call to the start of its child scope and a
dashed edge from the put to the get of every channel; a channel without exactly one of each is a
failure.  Vertex `v` of the scope that is number `i` in the tree is the node `s{i}_n{v}`.
-/

namespace AsyncOrder

/-! ## Nodes and edges -/

/-- Letters, digits and underscores stay; every other character becomes an underscore. -/
def dotName (s : String) : String :=
  String.ofList (s.toList.map fun c => if c.isAlphanum || c = '_' then c else '_')

/-- A backslash in front of quotes and backslashes. -/
def dotEscaped (s : String) : String :=
  String.join (s.toList.map fun c =>
    if c = '"' || c = '\\' then "\\" ++ String.singleton c else String.singleton c)

def Vertex.dotAttributes (v : Vertex) : String :=
  let kind := v.key.kind
  s!"label=\"{dotEscaped v.label}\", shape={kind.shape}, style=filled, fillcolor={kind.color}"

namespace Scope

def edgeLe (a b : Nat × Nat) : Bool := a.1 < b.1 || (a.1 = b.1 && a.2 ≤ b.2)

def sortedEdges (s : Scope) : List (Nat × Nat) := s.edges.mergeSort edgeLe

/-- The lines of the vertices and then of the edges; `node` names a vertex. -/
def dotLines (s : Scope) (pad : String) (node : Nat → String) : List String :=
  (s.vertices.mapIdx fun v x => s!"{pad}{node v} [{x.dotAttributes}];") ++
    s.sortedEdges.map fun (a, b) => s!"{pad}{node a} -> {node b};"

end Scope

/-- Lines, each with its line break. -/
def unlines (lines : List String) : String := String.join (lines.map (· ++ "\n"))

/-- One scope by itself. -/
def Scope.dot (s : Scope) (name : String) : String :=
  unlines (
    [s!"digraph {dotName name} \x7b", "    node [fontname=\"Helvetica\", fontsize=10];"] ++
    s.dotLines "    " (fun v => s!"n{v}") ++
    ["\x7d"])

/-! ## All scopes -/

/-- Node of vertex `v` of scope number `i`. -/
def nodeName (i v : Nat) : String := s!"s{i}_n{v}"

/-- Scope number `i`, which has been preceded by `seq` scopes of its kind. -/
def clusterLines (i seq : Nat) (s : Scope) : List String :=
  ["",
    s!"    subgraph cluster{i} \x7b",
    s!"        label=\"{s.kind.text}{seq}\";",
    "        style=rounded;",
    "        color=gray50;"] ++
  s.dotLines "        " (nodeName i) ++
  ["    \x7d"]

namespace Tree

variable (t : ScopeTree)

def clusters : List String :=
  t.toList.mapIdx (fun i s =>
    clusterLines i ((t.toList.take i).countP fun r => r.kind = s.kind) s) |>.flatten

/-- A heading, if there is anything under it. -/
def titled (title : String) (lines : List String) : List String :=
  if lines.isEmpty then [] else ["", s!"    // {title}"] ++ lines

/-- Number of the scope at `path`. -/
def number? (path : Path) : Option Nat := t.entries.findIdx? fun e => e.1 = path

/-- An edge from every call of scope number `i` to its child scope. -/
def callLinesOf (i : Nat) (path : Path) (s : Scope) : List String :=
  s.indices.filterMap fun v =>
    match s.link? v with
    | some (.child k) =>
      (t.number? (path ++ [k])).map fun c =>
        s!"    {nodeName i v} -> {nodeName c Scope.start} [style=dotted];"
    | _ => none

def callLines : List String :=
  (t.entries.mapIdx fun i (path, s) => t.callLinesOf i path s).flatten

/-- The nodes of the puts and gets in scope number `i`. -/
def channelNodesOf (i : Nat) (s : Scope) : List (OpId × String) :=
  s.indices.filterMap fun v =>
    match s.vertexKind? v, s.op? v with
    | some .channel, some op => some (op, nodeName i v)
    | _, _ => none

def channelNodes : List (OpId × String) := (t.toList.mapIdx channelNodesOf).flatten

/-- The node of a put or get, the last one if it has several. -/
def channelNode? (op : OpId) : Option String :=
  (t.channelNodes.reverse.find? (·.1 = op)).map (·.2)

/-- The edge of a channel. -/
def channelLines (p : Program) (channel : String) : Except Failure (List String) :=
  match p.puts channel, p.gets channel with
  | [put], [get] =>
    match t.channelNode? put, t.channelNode? get with
    | some a, some b =>
      let style := "style=dashed, color=red, constraint=false"
      .ok [s!"    {a} -> {b} [label=\"{channel}\", {style}];"]
    | _, _ => .ok []
  | puts, gets => .error (.channelNotInPairs channel puts.length gets.length)

/-- The channels in ascending order. -/
def sortedChannels (p : Program) : List String := p.channels.mergeSort fun a b => a ≤ b

/-- All scopes in one drawing; `p` is the program whose scopes they are. -/
def dot (p : Program) : Except Failure String := do
  let channels := sortedChannels p
  let overlay ← channels.mapM (t.channelLines p)
  return unlines (
    ["digraph depcanon \x7b",
      "    rankdir=LR;",
      "    node [fontname=\"Helvetica\", fontsize=10];",
      "    edge [fontname=\"Helvetica\", fontsize=9];"] ++
    t.clusters ++
    titled "Hierarchy calls" t.callLines ++
    (if channels.isEmpty then [] else ["", "    // Channels"]) ++ overlay.flatten ++
    ["\x7d"])

/-- Names and contents of the drawings of all scopes, the one of the whole tree first. -/
def dotFiles (p : Program) : Except Failure (List (String × String)) := do
  let whole ← t.dot p
  return ("graph.dot", whole) :: t.entries.map fun (path, s) =>
    let name := s.kind.nameAt path
    (name ++ ".dot", s.dot name)

end Tree

end AsyncOrder
