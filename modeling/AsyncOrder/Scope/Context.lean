import AsyncOrder.Scope.Basic

/-!
# Where to find vertices

A context belongs to a scope tree.  It knows the place of every key, and for every operation the
vertices at which it begins and ends: the first and the last of a compute, and one and the same
for any other operation.  What is added later counts before what was added earlier.
-/

namespace AsyncOrder

structure Context where
  counters : Counters
  /-- Keys, each with the path of its scope and its vertex. -/
  places : List (Key × Path × Nat)
  /-- Operations, each with the keys of its first and last vertex. -/
  ends : List (OpId × Key × Key)
deriving DecidableEq, Repr

namespace Context

def empty : Context := ⟨.zero, [], []⟩

def lookup? (c : Context) (key : Key) : Option (Path × Nat) :=
  (c.places.find? (·.1 = key)).map (·.2)

/-- The vertex that waits for `op`. -/
def entry? (c : Context) (op : OpId) : Option Key := (c.ends.find? (·.1 = op)).map (·.2.1)

/-- The vertex after which `op` is complete. -/
def exit? (c : Context) (op : OpId) : Option Key := (c.ends.find? (·.1 = op)).map (·.2.2)

end Context

end AsyncOrder
