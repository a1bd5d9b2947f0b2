import Mathlib.Logic.Relation
import Mathlib.Tactic.Common

/-!
# Traversals by a stack

A traversal can do without recursion.  It keeps a stack of what is still to be looked at, takes
the top, passes over what is not to be kept, and pushes what lies below the others, backwards.
What it meets is what a recursion meets, in the same order:

    (∀ stack a, push stack a = stack ++ (below a).reverse) → Preorder keep below as out →
      Turns keep push ⟨stack ++ as.reverse, met⟩ ⟨stack, met ++ out⟩              (Preorder.turns)
-/

namespace AsyncOrder

open Relation

variable {α : Type} {keep : α → Bool} {below : α → List α} {push : List α → α → List α}
variable {a : α} {as out stack met : List α}

/-! ## The order -/

/-- Those of a list that are to be kept, each followed by what lies below it; one that is not to be
kept is left out with all that is below it. -/
inductive Preorder (keep : α → Bool) (below : α → List α) : List α → List α → Prop
  | nil : Preorder keep below [] []
  | drop {a : α} {as out : List α} (ha : keep a = false) (hrest : Preorder keep below as out) :
      Preorder keep below (a :: as) out
  | keep {a : α} {as inner out : List α} (ha : keep a = true)
      (hinner : Preorder keep below (below a) inner) (hrest : Preorder keep below as out) :
      Preorder keep below (a :: as) (a :: inner ++ out)

theorem Preorder.unique {out' : List α} (h : Preorder keep below as out)
    (h' : Preorder keep below as out') : out' = out := by
  induction h generalizing out' with
  | nil => cases h'; rfl
  | drop ha _ ih =>
    cases h' with
    | drop _ hrest' => exact ih hrest'
    | keep ha' _ _ => simp [ha] at ha'
  | keep ha _ _ ihinner ihrest =>
    cases h' with
    | drop ha' _ => simp [ha] at ha'
    | keep _ hinner' hrest' => rw [ihinner hinner', ihrest hrest']

theorem Preorder.append {as' out' : List α} (h : Preorder keep below as out)
    (h' : Preorder keep below as' out') : Preorder keep below (as ++ as') (out ++ out') := by
  induction h with
  | nil => exact h'
  | drop ha _ ih => exact .drop ha ih
  | @keep a as inner out ha hinner _ _ ih =>
    have hkeep := Preorder.keep ha hinner ih
    rwa [← List.append_assoc] at hkeep

/-! ## The stack -/

/-- What is still to be looked at, the top of the stack last, and what has been met. -/
structure Traversal (α : Type) where
  stack : List α
  met : List α

namespace Traversal

/-- Takes the top of the stack.  What is to be kept is met, and what lies below it is pushed. -/
def turn (keep : α → Bool) (push : List α → α → List α) (t : Traversal α) :
    Option (Traversal α) :=
  match t.stack.getLast? with
  | none => none
  | some a =>
    if keep a then some ⟨push t.stack.dropLast a, t.met ++ [a]⟩
    else some ⟨t.stack.dropLast, t.met⟩

/-- One traversal comes to another by turns. -/
def Turns (keep : α → Bool) (push : List α → α → List α) : Traversal α → Traversal α → Prop :=
  ReflTransGen fun t t' => t.turn keep push = some t'

/-- Nothing has been met yet. -/
def start (as : List α) : Traversal α := ⟨as.reverse, []⟩

theorem turn_of_drop (ha : keep a = false) :
    turn keep push ⟨stack ++ [a], met⟩ = some ⟨stack, met⟩ := by
  simp [turn, ha]

theorem turn_of_keep (ha : keep a = true) :
    turn keep push ⟨stack ++ [a], met⟩ = some ⟨push stack a, met ++ [a]⟩ := by
  simp [turn, ha]

end Traversal

open Traversal

variable (hpush : ∀ stack a, push stack a = stack ++ (below a).reverse)
include hpush

/-- What has been pushed is met before what was on the stack. -/
theorem Preorder.turns (h : Preorder keep below as out) (stack met : List α) :
    Turns keep push ⟨stack ++ as.reverse, met⟩ ⟨stack, met ++ out⟩ := by
  induction h generalizing stack met with
  | nil =>
    simp only [List.reverse_nil, List.append_nil]
    exact ReflTransGen.refl
  | @drop a as out ha _ ih =>
    rw [List.reverse_cons, ← List.append_assoc]
    exact ReflTransGen.head (turn_of_drop ha) (ih stack met)
  | @keep a as inner out ha _ _ ihinner ihrest =>
    have hfirst : turn keep push ⟨stack ++ as.reverse ++ [a], met⟩ =
        some ⟨stack ++ as.reverse ++ (below a).reverse, met ++ [a]⟩ := by
      rw [turn_of_keep ha, hpush]
    have hinner := ihinner (stack ++ as.reverse) (met ++ [a])
    have hrest := ihrest stack (met ++ [a] ++ inner)
    rw [show met ++ [a] ++ inner ++ out = met ++ (a :: inner ++ out) by simp] at hrest
    rw [List.reverse_cons, ← List.append_assoc]
    exact ReflTransGen.head hfirst (ReflTransGen.trans hinner hrest)

theorem Preorder.turns_start (h : Preorder keep below as out) :
    Turns keep push (start as) ⟨[], out⟩ := h.turns hpush [] []

end AsyncOrder
