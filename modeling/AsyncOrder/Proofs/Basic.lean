import Mathlib.Data.List.Nodup

/-!
# Lists and results

Facts that the library does not have: about lists without repetition, about the order in which
two members stand and the parts a list is put together from, and about results that may fail.
-/

namespace AsyncOrder

variable {α β : Type}

/-! ## Repetition -/

theorem nodup_eraseDups [DecidableEq α] (l : List α) : l.eraseDups.Nodup := by
  have key : ∀ n, ∀ l : List α, l.length ≤ n → l.eraseDups.Nodup := by
    intro n
    induction n with
    | zero =>
      intro l hl
      rw [List.length_eq_zero_iff.1 (Nat.le_zero.1 hl), List.eraseDups_nil]
      exact List.nodup_nil
    | succ n ih =>
      intro l hl
      cases l with
      | nil => simp
      | cons a l =>
        rw [List.eraseDups_cons, List.nodup_cons]
        refine ⟨by simp, ih _ ?_⟩
        have := List.length_filter_le (fun b => !b == a) l
        simp only [List.length_cons] at hl
        omega
  exact key _ l (Nat.le_refl _)

theorem eraseDups_sublist [DecidableEq α] (l : List α) : l.eraseDups.Sublist l := by
  have key : ∀ n, ∀ l : List α, l.length ≤ n → l.eraseDups.Sublist l := by
    intro n
    induction n with
    | zero =>
      intro l hl
      rw [List.length_eq_zero_iff.1 (Nat.le_zero.1 hl), List.eraseDups_nil]
    | succ n ih =>
      intro l hl
      cases l with
      | nil => simp
      | cons a l =>
        rw [List.eraseDups_cons]
        have := List.length_filter_le (fun b => !b == a) l
        simp only [List.length_cons] at hl
        exact ((ih _ (by omega)).trans List.filter_sublist).cons_cons a
  exact key _ l (Nat.le_refl _)

/-- A part of a list that has all that pass the test has them in the same order. -/
theorem filter_eq_filter_of_sublist {f : α → Bool} {l l' : List α} (h : l.Sublist l')
    (hl' : l'.Nodup) (hmem : ∀ a ∈ l', f a = true → a ∈ l) : l.filter f = l'.filter f := by
  induction h with
  | slnil => rfl
  | @cons l l' a h ih =>
    rw [List.nodup_cons] at hl'
    have hnot : f a ≠ true := fun hf => hl'.1 (h.subset (hmem a List.mem_cons_self hf))
    rw [List.filter_cons_of_neg hnot]
    exact ih hl'.2 fun x hx => hmem x (List.mem_cons_of_mem _ hx)
  | @cons_cons l l' a h ih =>
    rw [List.nodup_cons] at hl'
    have hrest := ih hl'.2 fun x hx hf =>
      (List.mem_cons.1 (hmem x (List.mem_cons_of_mem _ hx) hf)).resolve_left
        fun heq => hl'.1 (heq ▸ hx)
    rw [List.filter_cons, List.filter_cons, hrest]

theorem flatMap_ite (f : α → Bool) (g : α → List β) (l : List α) :
    (l.flatMap fun a => if f a = true then g a else []) = (l.filter f).flatMap g := by
  induction l with
  | nil => rfl
  | cons a l ih =>
    rw [List.flatMap_cons, ih, List.filter_cons]
    split
    · rfl
    · rfl

/-! ## Places -/

/-- In a list that ascends, places are ordered as the members are. -/
theorem place_lt_iff {f : α → Nat} {l : List α} (hl : l.Pairwise fun a b => f a < f b) {i j : Nat}
    {a b : α} (hi : l[i]? = some a) (hj : l[j]? = some b) : i < j ↔ f a < f b := by
  obtain ⟨hil, rfl⟩ := List.getElem?_eq_some_iff.1 hi
  obtain ⟨hjl, rfl⟩ := List.getElem?_eq_some_iff.1 hj
  have hmono := List.pairwise_iff_getElem.1 hl
  constructor
  · exact hmono i j hil hjl
  · intro hlt
    rcases Nat.lt_trichotomy i j with h | rfl | h
    · exact h
    · exact absurd hlt (Nat.lt_irrefl _)
    · exact absurd (hmono j i hjl hil h) (Nat.not_lt_of_gt hlt)

/-- Of two members of a list that ascends, the lesser stands first. -/
theorem pair_sublist {f : α → Nat} {l : List α} (hl : l.Pairwise fun a b => f a < f b) {a b : α}
    (ha : a ∈ l) (hb : b ∈ l) (hlt : f a < f b) : [a, b].Sublist l := by
  obtain ⟨l₁, l₂, rfl⟩ := List.append_of_mem ha
  rcases List.mem_append.1 hb with hb | hb
  · have := (List.pairwise_append.1 hl).2.2 b hb a List.mem_cons_self
    omega
  · rcases List.mem_cons.1 hb with rfl | hb
    · exact absurd hlt (Nat.lt_irrefl _)
    · exact List.sublist_append_of_sublist_right ((List.singleton_sublist.2 hb).cons_cons a)

/-- In a list without repetition, what stands first has the lesser place. -/
theorem idxOf_lt_idxOf [DecidableEq α] {l : List α} (hl : l.Nodup) {a b : α}
    (h : [a, b].Sublist l) : l.idxOf a < l.idxOf b := by
  induction l with
  | nil => exact absurd h (by simp)
  | cons c l ih =>
    rw [List.nodup_cons] at hl
    rcases List.sublist_cons_iff.1 h with h | ⟨r, hr, h⟩
    · have ha : c ≠ a := fun heq => hl.1 (heq ▸ h.subset List.mem_cons_self)
      have hb : c ≠ b := fun heq => hl.1 (heq ▸ h.subset (by simp))
      have := ih hl.2 h
      rw [List.idxOf_cons_ne _ ha, List.idxOf_cons_ne _ hb]
      omega
    · obtain ⟨rfl, rfl⟩ := List.cons.inj hr
      have hb : a ≠ b := fun heq => hl.1 (heq ▸ List.singleton_sublist.1 h)
      rw [List.idxOf_cons_self, List.idxOf_cons_ne _ hb]
      omega

/-- The last of a list is the last of what is left of it, if it is left. -/
theorem getLast?_of_sublist {l l' : List α} {a : α} (h : l'.Sublist l) (hl : l.Nodup)
    (ha : l.getLast? = some a) (hmem : a ∈ l') : l'.getLast? = some a := by
  obtain ⟨init, rfl⟩ := List.getLast?_eq_some_iff.1 ha
  obtain ⟨l₁, l₂, rfl, h₁, h₂⟩ := List.sublist_append_iff.1 h
  rcases List.sublist_singleton.1 h₂ with rfl | rfl
  · rw [List.append_nil] at hmem
    exact absurd rfl ((List.nodup_append.1 hl).2.2 a (h₁.subset hmem) a (List.mem_singleton_self a))
  · exact List.getLast?_concat

theorem sublist_flatMap_of_mem {f : α → List β} {l : List α} {a : α} (h : a ∈ l) :
    (f a).Sublist (l.flatMap f) := by
  rw [List.flatMap_def]
  exact List.sublist_flatten_of_mem (List.mem_map_of_mem h)

/-- What stands at a place of a list that is put together from parts. -/
theorem getElem?_flatMap_iff {f : α → List β} {l : List α} {n : Nat} {b : β} :
    (l.flatMap f)[n]? = some b ↔ ∃ l₁ a l₂ i, l = l₁ ++ a :: l₂ ∧
      n = (l₁.flatMap f).length + i ∧ (f a)[i]? = some b := by
  constructor
  · intro h
    induction l generalizing n with
    | nil => simp at h
    | cons a l ih =>
      rw [List.flatMap_cons, List.getElem?_append] at h
      split at h
      · exact ⟨[], a, l, n, rfl, (Nat.zero_add n).symm, h⟩
      · obtain ⟨l₁, c, l₂, i, rfl, hn, hi⟩ := ih h
        refine ⟨a :: l₁, c, l₂, i, rfl, ?_, hi⟩
        rw [List.flatMap_cons, List.length_append]
        omega
  · rintro ⟨l₁, a, l₂, i, rfl, rfl, hi⟩
    have hlt := (List.getElem?_eq_some_iff.1 hi).1
    rw [List.flatMap_append, List.flatMap_cons, List.getElem?_append_right (Nat.le_add_right _ _),
      Nat.add_sub_cancel_left, List.getElem?_append_left hlt, hi]

/-! ## Parting a list -/

/-- Two ways to part a list at a member. -/
theorem append_cons_eq_append_cons {l₁ l₂ m₁ m₂ : List β} {a w : β}
    (h : m₁ ++ w :: m₂ = l₁ ++ a :: l₂) :
    (a = w ∧ l₁ = m₁) ∨ (∃ m, l₁ = m₁ ++ w :: m ∧ m₂ = m ++ a :: l₂) ∨
      ∃ m, m₁ = l₁ ++ a :: m := by
  rcases List.append_eq_append_iff.1 h with ⟨m, rfl, hm⟩ | ⟨m, rfl, hm⟩
  · rcases List.cons_eq_append_iff.1 hm with ⟨rfl, heq⟩ | ⟨m, rfl, hm⟩
    · exact Or.inl ⟨(List.cons_eq_cons.1 heq).1, List.append_nil _⟩
    · exact Or.inr (Or.inl ⟨m, rfl, (List.cons_eq_cons.1 hm).2⟩)
  · rcases List.cons_eq_append_iff.1 hm with ⟨rfl, heq⟩ | ⟨m, rfl, -⟩
    · exact Or.inl ⟨(List.cons_eq_cons.1 heq).1.symm, (List.append_nil _).symm⟩
    · exact Or.inr (Or.inr ⟨m, rfl⟩)

/-- Two ways to part a list with one more member at its end. -/
theorem append_singleton_eq_append_cons {l l₁ l₂ : List α} {a b : α}
    (h : l ++ [a] = l₁ ++ b :: l₂) :
    (l₁ = l ∧ b = a ∧ l₂ = []) ∨ ∃ m, l₂ = m ++ [a] ∧ l = l₁ ++ b :: m := by
  rcases List.eq_nil_or_concat l₂ with rfl | ⟨m, c, rfl⟩
  · obtain ⟨rfl, hb⟩ := List.append_inj' h rfl
    exact Or.inl ⟨rfl, (List.cons.inj hb).1.symm, rfl⟩
  · rw [List.concat_eq_append, ← List.cons_append, ← List.append_assoc] at h
    obtain ⟨hl, hc⟩ := List.append_inj' h rfl
    refine Or.inr ⟨m, ?_, hl⟩
    rw [List.concat_eq_append, (List.cons.inj hc).1]

/-! ## Results -/

section

variable {ε : Type} {x : Except ε α}

theorem error_of_bind_eq_error {f : α → Except ε β} {e : ε} (h : x >>= f = .error e) :
    x = .error e ∨ ∃ a, x = .ok a ∧ f a = .error e := by
  cases x with
  | error e' => exact Or.inl (congrArg Except.error (Except.error.inj h))
  | ok a => exact Or.inr ⟨a, rfl, h⟩

theorem error_of_foldlM {f : β → α → Except ε β} {e : ε} (l : List α) (b : β)
    (h : l.foldlM f b = .error e) : ∃ b a, f b a = .error e := by
  induction l generalizing b with
  | nil => cases h
  | cons a l ih =>
    rw [List.foldlM_cons] at h
    rcases error_of_bind_eq_error h with h | ⟨b', -, h⟩
    · exact ⟨b, a, h⟩
    · exact ih b' h

theorem exists_of_bind_eq_ok {f : α → Except ε β} {b : β} (h : x >>= f = .ok b) :
    ∃ a, x = .ok a ∧ f a = .ok b := by
  cases x with
  | error e => cases h
  | ok a => exact ⟨a, rfl, h⟩

end

end AsyncOrder
