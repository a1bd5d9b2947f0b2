/-!
# Trees

A node holds an element and the list of its subtrees.  A path leads to a subtree by the numbers
of the children on the way; `entries` lists the elements with their paths, a node before its
children and children from left to right:

    (path, a) ∈ t.entries ↔ (t.at? path).map root = some a
-/

namespace AsyncOrder

inductive Tree (α : Type) where
  | node (root : α) (children : List (Tree α))

/-- Numbers of children, from the root down. -/
abbrev Path := List Nat

namespace Tree

variable {α β : Type}

def root : Tree α → α
  | node a _ => a

def children : Tree α → List (Tree α)
  | node _ ts => ts

def modifyRoot (f : α → α) : Tree α → Tree α
  | node a ts => node (f a) ts

/-! ## Subtrees -/

def at? (t : Tree α) : Path → Option (Tree α)
  | [] => some t
  | i :: path => t.children[i]?.bind fun child => child.at? path

/-- Changes the subtree at `path`; without one the tree stays as it is. -/
def modifyAt (f : Tree α → Tree α) : Path → Tree α → Tree α
  | [], t => f t
  | i :: path, node a ts => node a (ts.modify i (modifyAt f path))

/-! ## All elements -/

mutual

/-- The elements with their paths. -/
def entries : Tree α → List (Path × α)
  | node a ts => ([], a) :: entriesFrom 0 ts

/-- The entries of trees that are the children of one node, from number `i` on. -/
def entriesFrom (i : Nat) : List (Tree α) → List (Path × α)
  | [] => []
  | t :: ts => (t.entries.map fun e => (i :: e.1, e.2)) ++ entriesFrom (i + 1) ts

end

def toList (t : Tree α) : List α := t.entries.map (·.2)

mutual

/-- Changes every element by `f`, which is given its path.  The tree itself is at `path`. -/
def mapWithPath (f : Path → α → β) (path : Path) : Tree α → Tree β
  | node a ts => node (f path a) (mapAllWithPath f path 0 ts)

/-- The trees are the children of the node at `path`, from number `i` on. -/
def mapAllWithPath (f : Path → α → β) (path : Path) (i : Nat) : List (Tree α) → List (Tree β)
  | [] => []
  | t :: ts => mapWithPath f (path ++ [i]) t :: mapAllWithPath f path (i + 1) ts

end

def map (f : α → β) (t : Tree α) : Tree β := t.mapWithPath (fun _ => f) []

mutual

/-- As `mapWithPath`, where `f` may fail; the first failure in the order of `entries` counts. -/
def mapWithPathM {ε : Type} (f : Path → α → Except ε β) (path : Path) :
    Tree α → Except ε (Tree β)
  | node a ts => do
    let b ← f path a
    return node b (← mapAllWithPathM f path 0 ts)

def mapAllWithPathM {ε : Type} (f : Path → α → Except ε β) (path : Path) (i : Nat) :
    List (Tree α) → Except ε (List (Tree β))
  | [] => .ok []
  | t :: ts => do
    let t ← mapWithPathM f (path ++ [i]) t
    return t :: (← mapAllWithPathM f path (i + 1) ts)

end

end Tree

end AsyncOrder
