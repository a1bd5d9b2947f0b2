import AsyncOrder.Program.Edit

/-!
# Growing dependency lists

A growing program is one whose operations come to wait on more and more tokens.  A token is only
ever appended, where it is missing, and counted.
-/

namespace AsyncOrder

/-- A program and the number of tokens appended so far. -/
structure Growing where
  program : Program
  added : Nat

namespace Growing

/-- `op` waits on `token` as well. -/
def wait (g : Growing) (op : OpId) (token : ValueId) : Growing :=
  if g.program.lacksDep op token then ⟨g.program.addDep op token, g.added + 1⟩ else g

def waitAll (g : Growing) (op : OpId) (tokens : List ValueId) : Growing :=
  tokens.foldl (fun g token => g.wait op token) g

def waitEach (g : Growing) (waits : List (OpId × ValueId)) : Growing :=
  waits.foldl (fun g (op, token) => g.wait op token) g

end Growing

def Program.growing (p : Program) : Growing := ⟨p, 0⟩

end AsyncOrder
