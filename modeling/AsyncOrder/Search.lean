import AsyncOrder.IndexSet

/-!
# Depth-first search

`visit next limit stack seen` walks from the vertices of `stack`, the front one first, along
`next`.  It returns the vertices in the order in which they are met, each once, and never one
that has been `seen`; after `limit` vertices it stops.  With a limit that no walk exceeds,

    v ∈ visit next limit stack .empty ↔ v is reachable along `next` from a member of `stack`

`finished` goes the same way and returns the same vertices, each after all that was first met
beyond it.  Where `next` has no cycle, a vertex comes after all that it leads to.
-/

namespace AsyncOrder

variable {α : Type} [Indexed α]

@[specialize]
def visit (next : α → List α) : (limit : Nat) → (stack : List α) → (seen : IndexSet) → List α
  | 0, _, _ => []
  | limit + 1, stack, seen =>
    match stack.dropWhile seen.contains with
    | [] => []
    | v :: rest => v :: visit next limit (next v ++ rest) (seen.insert v)

@[specialize]
def finished (next : α → List α) : (limit : Nat) → (stack : List α) → (seen : IndexSet) → List α
  | 0, _, _ => []
  | limit + 1, stack, seen =>
    match stack.dropWhile seen.contains with
    | [] => []
    | v :: rest =>
      let beyond := finished next limit (next v) (seen.insert v)
      beyond ++ v :: finished next limit rest ((seen.insert v).insertAll beyond)

end AsyncOrder
