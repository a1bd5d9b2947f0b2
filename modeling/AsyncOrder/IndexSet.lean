/-!
# Sets of indexed elements

An element with an index of its own can be a member of a set of indices, which is kept as the
bits of one number.  Inserting adds just what is inserted:

    (s.insert a).contains b = (s.contains b || a = b)
    (s.insertAll as).contains b = (s.contains b || b ∈ as)
    (s.union s').contains b = (s.contains b || s'.contains b)
-/

namespace AsyncOrder

/-- Elements with an index that no other element has. -/
class Indexed (α : Type) where
  indexOf : α → Nat
  indexOf_inj {a b : α} : indexOf a = indexOf b → a = b

instance : Indexed Nat := ⟨id, id⟩

/-- Bit `i` tells whether the element with index `i` is a member. -/
structure IndexSet where
  bits : Nat
deriving DecidableEq, Repr

namespace IndexSet

variable {α : Type} [Indexed α]

def empty : IndexSet := ⟨0⟩

def contains (s : IndexSet) (a : α) : Bool := s.bits.testBit (Indexed.indexOf a)

def insert (s : IndexSet) (a : α) : IndexSet := ⟨s.bits ||| 1 <<< Indexed.indexOf a⟩

def insertAll (s : IndexSet) (as : List α) : IndexSet := as.foldl insert s

def ofList (as : List α) : IndexSet := empty.insertAll as

def union (s s' : IndexSet) : IndexSet := ⟨s.bits ||| s'.bits⟩

/-! ## Members -/

@[simp]
theorem contains_empty (a : α) : empty.contains a = false := by
  simp [contains, empty]

@[simp]
theorem contains_union (s s' : IndexSet) (a : α) :
    (s.union s').contains a = (s.contains a || s'.contains a) := by
  simp [contains, union]

variable [DecidableEq α]

@[simp]
theorem contains_insert (s : IndexSet) (a b : α) :
    (s.insert a).contains b = (s.contains b || a = b) := by
  have h : Indexed.indexOf a = Indexed.indexOf b ↔ a = b :=
    ⟨Indexed.indexOf_inj, congrArg Indexed.indexOf⟩
  simp only [contains, insert, Nat.testBit_or, Nat.one_shiftLeft, Nat.testBit_two_pow, h]

theorem contains_insertAll (as : List α) (s : IndexSet) (b : α) :
    (s.insertAll as).contains b = (s.contains b || b ∈ as) := by
  induction as generalizing s with
  | nil => simp [insertAll]
  | cons a as ih =>
    rw [insertAll, List.foldl_cons, ← insertAll, ih, contains_insert]
    simp [Bool.or_assoc, eq_comm]

@[simp]
theorem contains_ofList (as : List α) (b : α) : (ofList as).contains b = (b ∈ as : Bool) := by
  simp [ofList, contains_insertAll]

end IndexSet

end AsyncOrder
