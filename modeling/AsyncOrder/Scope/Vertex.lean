/-!
# Vertex kinds and keys

A vertex of a dependency graph is known by its key, its kind and a number.  Numbers are handed
out per kind, from zero and without gaps, so keys do not repeat:

    count k (alloc k c).2 = count k c + 1,    (alloc k c).1 = ⟨k, count k c⟩
-/

namespace AsyncOrder

inductive VertexKind where
  | start
  | transfer
  | channel
  | compute
  | controlLoop
  | hierarchyCall
  | hierarchyTerminator
  | barrier
  | terminator
deriving DecidableEq, Repr

namespace VertexKind

def all : List VertexKind := [
  start, transfer, channel, compute, controlLoop, hierarchyCall, hierarchyTerminator, barrier,
  terminator]

/-- Place in `all`. -/
def ordinal : VertexKind → Nat
  | start => 0
  | transfer => 1
  | channel => 2
  | compute => 3
  | controlLoop => 4
  | hierarchyCall => 5
  | hierarchyTerminator => 6
  | barrier => 7
  | terminator => 8

/-- The kind in a key. -/
def text : VertexKind → String
  | start => "start"
  | transfer => "transfer"
  | channel => "channel"
  | compute => "compute"
  | controlLoop => "control_loop"
  | hierarchyCall => "hierarchy"
  | hierarchyTerminator => "hierarchy_terminator"
  | barrier => "barrier"
  | terminator => "terminator"

/-- The kind as a field of the summary, where hierarchy calls are called so. -/
def fieldText : VertexKind → String
  | hierarchyCall => "hierarchy_call"
  | kind => kind.text

def ofText? (s : String) : Option VertexKind := all.find? fun k => k.text == s

/-- Fill colour of drawings. -/
def color : VertexKind → String
  | start | hierarchyCall | hierarchyTerminator => "yellow"
  | transfer | channel => "cyan"
  | compute => "chartreuse"
  | controlLoop | barrier | terminator => "crimson"

/-- Node shape of drawings. -/
def shape : VertexKind → String
  | transfer | channel | compute | barrier => "oval"
  | _ => "box"

end VertexKind

structure Key where
  kind : VertexKind
  seq : Nat
deriving DecidableEq, Repr

namespace Key

def text (k : Key) : String := s!"{k.kind.text}#{k.seq}"

/-- Keys are ordered by kind, then by number. -/
def le (a b : Key) : Bool :=
  a.kind.ordinal < b.kind.ordinal || (a.kind = b.kind && a.seq ≤ b.seq)

end Key

/-- How many keys of each kind have been handed out. -/
structure Counters where
  counts : Array Nat
deriving DecidableEq, Repr

namespace Counters

def zero : Counters := ⟨Array.replicate VertexKind.all.length 0⟩

def count (c : Counters) (kind : VertexKind) : Nat := c.counts[kind.ordinal]?.getD 0

def alloc (c : Counters) (kind : VertexKind) : Key × Counters :=
  (⟨kind, c.count kind⟩, ⟨c.counts.modify kind.ordinal (· + 1)⟩)

end Counters

end AsyncOrder
