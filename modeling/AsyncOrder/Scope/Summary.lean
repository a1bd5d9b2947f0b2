import AsyncOrder.Scope.Basic
import AsyncOrder.Text.Json

/-!
# Scope trees as text

The plain text has a line per scope, and under it a line per edge in the order of the edges;
deeper scopes are indented.  The JSON summary lists vertices in their order and edges by their
keys in ascending order.
-/

namespace AsyncOrder

/-! ## Plain text -/

def Vertex.title (v : Vertex) : String := s!"{v.key.text} ({v.label})"

namespace Scope

def edgeTitle (s : Scope) (e : Nat × Nat) : String :=
  match s.vertices[e.1]?, s.vertices[e.2]? with
  | some a, some b => s!"{a.title} -> {b.title}"
  | _, _ => ""

def textAt (path : Path) (s : Scope) : String :=
  let pad := String.join (path.map fun _ => "  ")
  let name := s.kind.nameAt path
  s!"{pad}scope '{name}': {s.size} vertices, {s.edges.length} edges\n" ++
    String.join (s.edges.map fun e => s!"{pad}  {s.edgeTitle e}\n")

end Scope

def Tree.text (t : ScopeTree) : String := String.join (t.entries.map fun (path, s) => s.textAt path)

/-! ## Summary -/

open Text (Json)

def Vertex.summary (v : Vertex) : Json :=
  .obj [("key", .str v.key.text), ("kind", .str v.key.kind.fieldText), ("label", .str v.label)]

namespace Scope

def edgeSummary (e : Key × Key) : Json := .arr [.str e.1.text, .str e.2.text]

def summaryAt (path : Path) (s : Scope) (children : List Json) : Json :=
  .obj [
    ("name", .str (s.kind.nameAt path)),
    ("kind", .str s.kind.text),
    ("vertices", .arr (s.vertices.map Vertex.summary)),
    ("edges", .arr (s.edgeKeys.map edgeSummary)),
    ("children", .arr children)]

end Scope

mutual

def summaryFrom (path : Path) : ScopeTree → Json
  | .node s ts => s.summaryAt path (summariesFrom path 0 ts)

def summariesFrom (path : Path) (i : Nat) : List ScopeTree → List Json
  | [] => []
  | t :: ts => summaryFrom (path ++ [i]) t :: summariesFrom path (i + 1) ts

end

def Tree.summary (t : ScopeTree) : Json := summaryFrom [] t

end AsyncOrder
