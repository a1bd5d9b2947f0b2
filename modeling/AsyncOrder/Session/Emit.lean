import AsyncOrder.Program.Printer
import AsyncOrder.Scope.Drawing
import AsyncOrder.Scope.Summary
import AsyncOrder.Session.Run

/-!
# What a session shows

Each target needs the passes up to its terminal pass.  Without the graphs it shows, a target
says so in its text.
-/

namespace AsyncOrder

inductive Target where
  /-- Program text. -/
  | ir
  /-- Stitched scope graphs. -/
  | graph
  /-- Reduced scope graphs. -/
  | reduced
  /-- One drawing of the scope graphs. -/
  | dot
  /-- Summary of the scope graphs. -/
  | json
deriving DecidableEq, Repr

namespace Target

def all : List Target := [ir, graph, reduced, dot, json]

def name : Target → String
  | ir => "ir"
  | graph => "graph"
  | reduced => "reduced"
  | dot => "dot"
  | json => "json"

def ofName? (s : String) : Option Target := all.find? fun t => t.name == s

/-- The last pass that the target needs. -/
def terminal : Target → Pass
  | ir => .cleanup
  | graph => .stitch
  | reduced | dot | json => .reduce

end Target

namespace Session

variable (s : Session)

/-- The text of a scope tree, or that there is none. -/
def treeText (what : String) : Option ScopeTree → String
  | some t => t.text
  | none => s!"<{what} not computed>\n"

def render : Target → Except Failure String
  | .ir => .ok s.program.text
  | .graph => .ok (treeText "graph" s.graphs)
  | .reduced => .ok (treeText "reduced graph" s.reduced)
  | .dot =>
    match s.latest? with
    | some t => t.dot s.program
    | none => .ok (treeText "graph" none)
  | .json =>
    match s.latest? with
    | some t => .ok (t.summary.pretty ++ "\n")
    | none => .ok (treeText "graph" none)

/-- The drawings of the scope tree that has come furthest. -/
def drawings : Except Failure (List (String × String)) :=
  match s.latest? with
  | some t => t.dotFiles s.program
  | none => .ok []

end Session

end AsyncOrder
