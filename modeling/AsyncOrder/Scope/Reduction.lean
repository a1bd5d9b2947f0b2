import AsyncOrder.Scope.Basic
import AsyncOrder.Diagnostic.Failure

/-!
# Reducing scopes

Every scope keeps the edges that no longer path replaces.  A cycle in a scope ends the reduction
of the tree; of several scopes with cycles the first in the order of the tree is reported.

The vertices are entered anew, one after the other, and a map for each scope says which vertex has
become which.  Edges, terminators and the links from terminators back to calls are told by it; a
link leads into the scope above, so it is told by the map of that scope.
-/

namespace AsyncOrder

/-! ## Vertex maps -/

/-- Says which vertex of a scope is which vertex of the reduced scope, and back. -/
structure VertexMap where
  toNew : List (Nat × Nat)
  toOld : List (Nat × Nat)
deriving DecidableEq, Repr

namespace VertexMap

def empty : VertexMap := ⟨[], []⟩

variable (m : VertexMap)

/-- Enters a pair in place of what was entered for `old`, and back for `new`. -/
def insert (old new : Nat) : VertexMap :=
  ⟨(old, new) :: m.toNew.filter (·.1 ≠ old), (new, old) :: m.toOld.filter (·.1 ≠ new)⟩

def size : Nat := m.toNew.length

def toNew? (v : Nat) : Option Nat := (m.toNew.find? (·.1 = v)).map (·.2)

def toOld? (v : Nat) : Option Nat := (m.toOld.find? (·.1 = v)).map (·.2)

/-- What becomes of a link, if it leads back to a vertex of the scope of the map. -/
def link? : Option Link → Option Link
  | some (.parent call) => (m.toNew? call).map .parent
  | link => link

end VertexMap

/-! ## One scope -/

namespace Scope

variable (s : Scope)

/-- The scope with its edges reduced; `name` is for the failure. -/
def reduce (name : String) : Except Failure Scope :=
  match (s.graph.cycleVertex?).bind (s.vertices[·]?) with
  | some v => .error (.cyclicPrecedence name v.key)
  | none => .ok { s with edges := s.graph.reduce.edges }

/-- The vertices are entered in order, each behind those entered before. -/
def vertexMap : VertexMap := s.indices.foldl (fun m v => m.insert v m.size) .empty

/-- The scope with edges and terminator told by `m`. -/
def renumber (m : VertexMap) : Scope :=
  { s with
    edges := s.edges.filterMap fun (u, v) =>
      (m.toNew? u).bind fun u => (m.toNew? v).map fun v => (u, v)
    terminator := s.terminator.bind m.toNew? }

/-- The scope with the link of its terminator told by `m`, the map of the scope above. -/
def relink (m : VertexMap) : Scope :=
  match s.terminator with
  | some t => { s with vertices := s.vertices.modify t fun x => { x with link := m.link? x.link } }
  | none => s

end Scope

/-! ## Trees -/

/-- Reduces every scope. -/
def Tree.reduce (t : ScopeTree) : Except Failure ScopeTree :=
  t.mapWithPathM (fun path s => s.reduce (s.kind.nameAt path)) []

/-- The vertex maps of the reduction. -/
def Tree.vertexMaps (t : ScopeTree) : Tree VertexMap := t.map Scope.vertexMap

mutual

/-- Enters the vertices of all scopes anew; `above?` is the map of the scope above. -/
def renumberFrom (above? : Option VertexMap) : ScopeTree → ScopeTree
  | .node s ts =>
    let renumbered := s.renumber s.vertexMap
    .node ((above?.map renumbered.relink).getD renumbered) (renumberChildren s.vertexMap ts)

def renumberChildren (above : VertexMap) : List ScopeTree → List ScopeTree
  | [] => []
  | t :: ts => renumberFrom (some above) t :: renumberChildren above ts

end

/-- The reduced tree, and what has become of the vertices. -/
def Tree.reduceWithMaps (t : ScopeTree) : Except Failure (ScopeTree × Tree VertexMap) := do
  let reduced ← t.reduce
  return (renumberFrom none reduced, t.vertexMaps)

end AsyncOrder
