import AsyncOrder.Search

/-!
# Directed graphs

The vertices are the numbers below `size`; edges are kept in the order in which they were added.

`order` lists the vertices by a depth-first search, last finished first.  In a graph without
cycles every edge then leads forwards, so an edge that leads backwards betrays a cycle:

    g.cycleVertex? = none ↔ g has no cycle
    g.cycleVertex? = some v → v lies on a cycle

`reduce` goes through the vertices from the last to the first, notes what the edges kept so far
lead to, and keeps an edge that leads elsewhere.  Without cycles these are the edges `u → v` such
that no path of two or more edges leads from `u` to `v`, listed in ascending order.

Searches look vertices up in a table of successors, made once per graph:

    u < g.size → g.table.next u = g.successors u ∧ g.flip.table.next u = g.predecessors u
-/

namespace AsyncOrder

structure Digraph where
  size : Nat
  edges : List (Nat × Nat)
deriving DecidableEq, Repr

/-- The successors of every vertex. -/
structure SuccessorTable where
  rows : Array (List Nat)

def SuccessorTable.next (t : SuccessorTable) (u : Nat) : List Nat := t.rows[u]?.getD []

namespace Digraph

variable (g : Digraph)

/-! ## Edges -/

/-- Targets of the edges from `u`, in the order of the edges. -/
def successors (u : Nat) : List Nat := (g.edges.filter (·.1 = u)).map (·.2)

/-- Sources of the edges to `v`, in the order of the edges. -/
def predecessors (v : Nat) : List Nat := (g.edges.filter (·.2 = v)).map (·.1)

/-- No edge leads from `u`. -/
def isSink (u : Nat) : Bool := g.edges.all (·.1 ≠ u)

/-- No edge leads to `v`. -/
def isSource (v : Nat) : Bool := g.edges.all (·.2 ≠ v)

/-- Every edge the other way round. -/
def flip : Digraph := { g with edges := g.edges.map fun e => (e.2, e.1) }

def table : SuccessorTable :=
  ⟨g.edges.foldr (fun e rows => rows.modify e.1 (e.2 :: ·)) (Array.replicate g.size [])⟩

/-! ## Adding edges -/

/-- Edges to be added, and for every source the targets that it leads to by then. -/
structure Added where
  targets : Array IndexSet
  edges : Array (Nat × Nat)

def Added.add (a : Added) (e : Nat × Nat) : Added :=
  if (a.targets[e.1]?.getD .empty).contains e.2 then a
  else ⟨a.targets.modify e.1 (·.insert e.2), a.edges.push e⟩

/-- The targets of the edges of `g`, and nothing to be added yet. -/
def noneAdded : Added :=
  ⟨g.edges.foldl (fun targets e => targets.modify e.1 (·.insert e.2))
    (Array.replicate g.size .empty), #[]⟩

/-- Adds the edges that are not there, each once. -/
def addEdges (es : List (Nat × Nat)) : Digraph :=
  { g with edges := g.edges ++ (es.foldl Added.add g.noneAdded).edges.toList }

/-! ## Reachability -/

/-- Vertices reachable from a member of `vs` by any number of edges. -/
def reach (vs : List Nat) : List Nat := visit g.table.next g.size vs .empty

/-- Vertices to which a path of one or more edges leads from `u`. -/
def descendants (u : Nat) : List Nat := g.reach (g.successors u)

def reaches (u v : Nat) : Bool := v ∈ g.descendants u

/-! ## Cycles -/

/-- The vertices, those a search finishes last first. -/
def order : List Nat := (finished g.table.next g.size (List.range g.size) .empty).reverse

/-- The first vertex met by a search that is its own successor. -/
def selfLoop? : Option Nat :=
  let t := g.table
  (visit t.next g.size (List.range g.size) .empty).find? fun v => v ∈ t.next v

/-- Goes through the list until a vertex has a predecessor that has not come before it;
`sources` is the table of predecessors. -/
def latePredecessor? (sources : SuccessorTable) :
    (before : IndexSet) → List Nat → Option Nat
  | _, [] => none
  | before, v :: rest =>
    let before := before.insert v
    match (sources.next v).find? fun u => !before.contains u with
    | some u => some u
    | none => latePredecessor? sources before rest

/-- A vertex on a cycle. -/
def cycleVertex? : Option Nat :=
  match g.selfLoop? with
  | some v => some v
  | none => latePredecessor? g.flip.table .empty g.order

/-! ## Reduction -/

/-- Edges that are kept, and for every vertex what they lead to. -/
structure Kept where
  reach : Array IndexSet
  edges : Array (Nat × Nat)

def Kept.row (k : Kept) (u : Nat) : IndexSet := k.reach[u]?.getD .empty

/-- Keeps the edge from `u` to `v` unless kept edges lead there. -/
def Kept.keep (u : Nat) (k : Kept) (v : Nat) : Kept :=
  if (k.row u).contains v then k
  else
    let beyond := k.row v
    ⟨k.reach.modify u fun row => (row.insert v).union beyond, k.edges.push (u, v)⟩

/-- The targets of the edges from `u`, each once, as they follow each other in `order`. -/
def targets (t : SuccessorTable) (order : List Nat) (u : Nat) : List Nat :=
  ((t.next u).mergeSort fun v w => order.idxOf v ≤ order.idxOf w).eraseDups

/-- Keeps edges from the last vertex to the first. -/
def sweep : Kept :=
  let t := g.table
  let order := g.order
  order.foldr (fun u k => (targets t order u).foldl (Kept.keep u) k)
    ⟨Array.replicate g.size .empty, #[]⟩

/-- Ascending by source, then by target. -/
def edgeLe (e f : Nat × Nat) : Bool := e.1 < f.1 || (e.1 = f.1 && e.2 ≤ f.2)

/-- The kept edges. -/
def reduce : Digraph := { g with edges := g.sweep.edges.toList.mergeSort edgeLe }

end Digraph

end AsyncOrder
