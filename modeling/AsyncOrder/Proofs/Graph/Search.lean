import AsyncOrder.Search
import AsyncOrder.Proofs.Basic
import Mathlib.Data.List.TakeWhile
import Mathlib.Logic.Relation
import Mathlib.Tactic.ByContra

/-!
# What a depth-first search finds

Within a list of vertices that `next` does not lead out of, a search with a limit of at least
its length is exhaustive:

    v ∈ visit next limit stack .empty ↔ v is led to by `next` from a member of `stack`   (mem_visit_iff)

`finished` lists the same vertices.  What a vertex leads to comes before it, unless it leads back
to the vertex (`finished_before`).  Neither looks at what has been seen on a stack (`visit_congr`,
`finished_congr`).
-/

namespace AsyncOrder

open Relation

variable {α : Type} [Indexed α] {next : α → List α}

/-- One step of a search. -/
def Leads (next : α → List α) (a b : α) : Prop := b ∈ next a

/-! ## The next vertex of a search -/

/-- The members of `us` that have not been seen. -/
def unseen (us : List α) (seen : IndexSet) : List α := us.filter fun a => !seen.contains a

theorem mem_of_dropWhile_cons {stack rest : List α} {seen : IndexSet} {v : α}
    (h : stack.dropWhile seen.contains = v :: rest) : v ∈ stack :=
  (List.dropWhile_suffix seen.contains).subset (h ▸ List.mem_cons_self)

theorem not_contains_of_dropWhile_cons {stack rest : List α} {seen : IndexSet} {v : α}
    (h : stack.dropWhile seen.contains = v :: rest) : seen.contains v = false := by
  have hne : stack.dropWhile seen.contains ≠ [] := by rw [h]; simp
  have := List.head_dropWhile_not seen.contains hne
  simpa [h] using this

theorem contains_or_mem_dropWhile {stack : List α} (seen : IndexSet) {v : α} (hv : v ∈ stack) :
    seen.contains v = true ∨ v ∈ stack.dropWhile seen.contains := by
  rw [← List.takeWhile_append_dropWhile (p := seen.contains) (l := stack), List.mem_append] at hv
  rcases hv with hv | hv
  · exact Or.inl (List.mem_takeWhile_imp hv)
  · exact Or.inr hv

theorem contains_of_dropWhile_eq_nil {stack : List α} {seen : IndexSet} {v : α}
    (h : stack.dropWhile seen.contains = []) (hv : v ∈ stack) : seen.contains v = true := by
  refine (contains_or_mem_dropWhile seen hv).resolve_right ?_
  rw [h]
  exact List.not_mem_nil

theorem contains_or_eq_or_mem {stack rest : List α} {seen : IndexSet} {v w : α}
    (h : stack.dropWhile seen.contains = w :: rest) (hv : v ∈ stack) :
    seen.contains v = true ∨ v = w ∨ v ∈ rest := by
  rw [← List.mem_cons, ← h]
  exact contains_or_mem_dropWhile seen hv

/-! ## Searches that know the same -/

section

variable {stack stack' rest : List α} {seen seen' : IndexSet} {v : α}

theorem unseen_eq_nil_of_dropWhile (h : stack.dropWhile seen.contains = []) :
    unseen stack seen = [] := by
  rw [unseen, List.filter_eq_nil_iff]
  intro a ha
  simp [contains_of_dropWhile_eq_nil h ha]

theorem unseen_eq_cons_of_dropWhile (h : stack.dropWhile seen.contains = v :: rest) :
    unseen stack seen = v :: unseen rest seen := by
  have hv := not_contains_of_dropWhile_cons h
  have hseen : (stack.takeWhile seen.contains).filter (fun a => !seen.contains a) = [] := by
    rw [List.filter_eq_nil_iff]
    intro a ha
    simp [List.mem_takeWhile_imp ha]
  rw [unseen, ← List.takeWhile_append_dropWhile (p := seen.contains) (l := stack), h,
    List.filter_append, hseen, List.nil_append, List.filter_cons_of_pos (by simp [hv]), unseen]

theorem unseen_append (us vs : List α) (seen : IndexSet) :
    unseen (us ++ vs) seen = unseen us seen ++ unseen vs seen := List.filter_append ..

/-- What has been seen remains so. -/
theorem unseen_unseen (us : List α)
    (h : ∀ a : α, seen.contains a = true → seen'.contains a = true) :
    unseen (unseen us seen) seen' = unseen us seen' := by
  rw [unseen, unseen, List.filter_filter]
  refine List.filter_congr fun a _ => ?_
  cases hs : seen.contains a with
  | false => simp
  | true => simp [h a hs]

theorem unseen_congr (h : ∀ a : α, seen.contains a = true → seen'.contains a = true)
    (heq : unseen stack seen = unseen stack' seen) : unseen stack seen' = unseen stack' seen' := by
  rw [← unseen_unseen stack h, heq, unseen_unseen stack' h]

/-- Stacks with the same unseen vertices go on with the same vertex. -/
theorem dropWhile_congr (h : unseen stack seen = unseen stack' seen) :
    stack.dropWhile seen.contains = [] ∧ stack'.dropWhile seen.contains = [] ∨
      ∃ v rest rest', stack.dropWhile seen.contains = v :: rest ∧
        stack'.dropWhile seen.contains = v :: rest' ∧ unseen rest seen = unseen rest' seen := by
  cases hd : stack.dropWhile seen.contains with
  | nil =>
    cases hd' : stack'.dropWhile seen.contains with
    | nil => exact Or.inl ⟨rfl, rfl⟩
    | cons v' rest' =>
      rw [unseen_eq_nil_of_dropWhile hd, unseen_eq_cons_of_dropWhile hd'] at h
      cases h
  | cons v rest =>
    rw [unseen_eq_cons_of_dropWhile hd] at h
    cases hd' : stack'.dropWhile seen.contains with
    | nil =>
      rw [unseen_eq_nil_of_dropWhile hd'] at h
      cases h
    | cons v' rest' =>
      rw [unseen_eq_cons_of_dropWhile hd'] at h
      obtain ⟨rfl, hrest⟩ := List.cons.inj h
      exact Or.inr ⟨v, rest, rest', rfl, rfl, hrest⟩

theorem finished_nil (limit : Nat) : finished next limit [] seen = [] := by
  cases limit <;> rfl

theorem visit_cons_of_not_contains {limit : Nat} (hv : seen.contains v = false) :
    visit next (limit + 1) (v :: rest) seen =
      v :: visit next limit (next v ++ rest) (seen.insert v) := by
  rw [visit, List.dropWhile_cons_of_neg (by simp [hv])]

theorem finished_cons_of_not_contains {limit : Nat} (hv : seen.contains v = false) :
    finished next (limit + 1) (v :: rest) seen =
      finished next limit (next v) (seen.insert v) ++ v :: finished next limit rest
        ((seen.insert v).insertAll (finished next limit (next v) (seen.insert v))) := by
  rw [finished, List.dropWhile_cons_of_neg (by simp [hv])]

variable [DecidableEq α]

theorem contains_insert_of_contains (v : α) :
    ∀ a : α, seen.contains a = true → (seen.insert v).contains a = true := by
  intro a ha
  simp [ha]

/-- A visit passes over what has been seen, wherever it stands on the stack. -/
theorem visit_congr {limit : Nat} (h : unseen stack seen = unseen stack' seen) :
    visit next limit stack seen = visit next limit stack' seen := by
  induction limit generalizing stack stack' seen with
  | zero => rfl
  | succ limit ih =>
    rcases dropWhile_congr h with ⟨hd, hd'⟩ | ⟨v, rest, rest', hd, hd', hrest⟩
    · simp only [visit, hd, hd']
    · have hlonger : unseen (next v ++ rest) (seen.insert v) =
          unseen (next v ++ rest') (seen.insert v) := by
        rw [unseen_append, unseen_append, unseen_congr (contains_insert_of_contains v) hrest]
      simp only [visit, hd, hd', ih hlonger]

theorem finished_congr {limit : Nat} (h : unseen stack seen = unseen stack' seen) :
    finished next limit stack seen = finished next limit stack' seen := by
  induction limit generalizing stack stack' seen with
  | zero => rfl
  | succ limit ih =>
    rcases dropWhile_congr h with ⟨hd, hd'⟩ | ⟨v, rest, rest', hd, hd', hrest⟩
    · simp only [finished, hd, hd']
    · have hkept : ∀ a : α, seen.contains a = true →
          ((seen.insert v).insertAll (finished next limit (next v) (seen.insert v))).contains a =
            true := by
        intro a ha
        simp [IndexSet.contains_insertAll, ha]
      simp only [finished, hd, hd', ih (unseen_congr hkept hrest)]

theorem visit_cons_of_contains {limit : Nat} (hv : seen.contains v = true) :
    visit next limit (v :: rest) seen = visit next limit rest seen :=
  visit_congr (by rw [unseen, List.filter_cons_of_neg (by simp [hv]), unseen])

theorem finished_cons_of_contains {limit : Nat} (hv : seen.contains v = true) :
    finished next limit (v :: rest) seen = finished next limit rest seen :=
  finished_congr (by rw [unseen, List.filter_cons_of_neg (by simp [hv]), unseen])

end

/-! ## Visited vertices -/

theorem visit_sound {limit : Nat} {stack : List α} {seen : IndexSet} {v : α}
    (hv : v ∈ visit next limit stack seen) : ∃ s ∈ stack, ReflTransGen (Leads next) s v := by
  induction limit generalizing stack seen with
  | zero => simp [visit] at hv
  | succ limit ih =>
    rw [visit] at hv
    split at hv
    · cases hv
    · next w rest hd =>
      have hw := mem_of_dropWhile_cons hd
      rcases List.mem_cons.1 hv with rfl | hv
      · exact ⟨v, hw, .refl⟩
      · obtain ⟨s, hs, hsv⟩ := ih hv
        rcases List.mem_append.1 hs with hs | hs
        · exact ⟨w, hw, .head hs hsv⟩
        · have hsub := (List.dropWhile_suffix (p := seen.contains) (l := stack)).subset
          exact ⟨s, hsub (hd ▸ List.mem_cons_of_mem w hs), hsv⟩

theorem finished_sound {limit : Nat} {stack : List α} {seen : IndexSet} {v : α}
    (hv : v ∈ finished next limit stack seen) :
    ∃ s ∈ stack, ReflTransGen (Leads next) s v := by
  induction limit generalizing stack seen with
  | zero => simp [finished] at hv
  | succ limit ih =>
    rw [finished] at hv
    split at hv
    · cases hv
    · next w rest hd =>
      have hsub := (List.dropWhile_suffix (p := seen.contains) (l := stack)).subset
      rw [hd] at hsub
      rcases List.mem_append.1 hv with hv | hv
      · obtain ⟨s, hs, hsv⟩ := ih hv
        exact ⟨w, hsub List.mem_cons_self, .head hs hsv⟩
      · rcases List.mem_cons.1 hv with rfl | hv
        · exact ⟨v, hsub List.mem_cons_self, .refl⟩
        · obtain ⟨s, hs, hsv⟩ := ih hv
          exact ⟨s, hsub (List.mem_cons_of_mem w hs), hsv⟩

theorem length_unseen_le (us : List α) (seen seen' : IndexSet)
    (h : ∀ a : α, seen.contains a = true → seen'.contains a = true) :
    (unseen us seen').length ≤ (unseen us seen).length := by
  apply List.Sublist.length_le
  apply List.monotone_filter_right
  intro a ha
  by_contra hc
  simp only [Bool.not_eq_true, Bool.not_eq_false'] at hc
  simp [h a hc] at ha

theorem contains_of_unseen_eq_nil {us : List α} {seen : IndexSet}
    (h : (unseen us seen).length ≤ 0) : ∀ a ∈ us, seen.contains a = true := by
  intro a ha
  by_contra hc
  have : a ∈ unseen us seen := List.mem_filter.2 ⟨ha, by simpa using hc⟩
  rw [List.length_eq_zero_iff.1 (Nat.le_zero.1 h)] at this
  cases this

variable [DecidableEq α]

theorem length_unseen_insert_lt {us : List α} {seen : IndexSet} {v : α} (hv : v ∈ us)
    (hnot : seen.contains v = false) :
    (unseen us (seen.insert v)).length < (unseen us seen).length := by
  have hsub : (unseen us (seen.insert v)).Sublist (unseen us seen) := by
    apply List.monotone_filter_right
    intro a ha
    simp only [IndexSet.contains_insert, Bool.not_or, Bool.and_eq_true] at ha
    exact ha.1
  refine Nat.lt_of_le_of_ne hsub.length_le fun heq => ?_
  have hmem : v ∈ unseen us (seen.insert v) := by
    rw [hsub.eq_of_length heq]
    exact List.mem_filter.2 ⟨hv, by simp [hnot]⟩
  simp [unseen] at hmem

/-- With enough steps everything on the stack, and everything that a visited vertex leads to,
is visited or has been seen. -/
theorem visit_closed {us : List α} (hus : ∀ a ∈ us, ∀ b ∈ next a, b ∈ us) (limit : Nat) :
    ∀ (stack : List α) (seen : IndexSet), (∀ a ∈ stack, a ∈ us) →
      (unseen us seen).length ≤ limit →
      (∀ a ∈ stack, a ∈ visit next limit stack seen ∨ seen.contains a = true) ∧
      ∀ a ∈ visit next limit stack seen, ∀ b ∈ next a,
        b ∈ visit next limit stack seen ∨ seen.contains b = true := by
  induction limit with
  | zero =>
    intro stack seen hstack hlimit
    have hall := contains_of_unseen_eq_nil hlimit
    exact ⟨fun a ha => Or.inr (hall a (hstack a ha)), by simp [visit]⟩
  | succ limit ih =>
    intro stack seen hstack hlimit
    cases hd : stack.dropWhile seen.contains with
    | nil =>
      exact ⟨fun a ha => Or.inr (contains_of_dropWhile_eq_nil hd ha), by simp [visit, hd]⟩
    | cons w rest =>
      have hw : w ∈ us := hstack w (mem_of_dropWhile_cons hd)
      have hless := length_unseen_insert_lt hw (not_contains_of_dropWhile_cons hd)
      have hsub := (List.dropWhile_suffix (p := seen.contains) (l := stack)).subset
      rw [hd] at hsub
      obtain ⟨hon, hfrom⟩ := ih (next w ++ rest) (seen.insert w)
        (fun a ha => by
          rcases List.mem_append.1 ha with ha | ha
          · exact hus w hw a ha
          · exact hstack a (hsub (List.mem_cons_of_mem w ha)))
        (by omega)
      -- what the smaller search has seen is `w` or was seen before
      have step : ∀ b, b ∈ visit next limit (next w ++ rest) (seen.insert w) ∨
          (seen.insert w).contains b = true →
          b ∈ visit next (limit + 1) stack seen ∨ seen.contains b = true := by
        intro b hb
        simp only [visit, hd, List.mem_cons]
        rw [IndexSet.contains_insert, Bool.or_eq_true, decide_eq_true_eq] at hb
        rcases hb with hb | hb | rfl
        · exact Or.inl (Or.inr hb)
        · exact Or.inr hb
        · exact Or.inl (Or.inl rfl)
      refine ⟨fun a ha => ?_, fun a ha b hb => ?_⟩
      · rcases contains_or_eq_or_mem hd ha with h | rfl | h
        · exact Or.inr h
        · exact step a (Or.inr (by simp))
        · exact step a (hon a (List.mem_append_right _ h))
      · simp only [visit, hd, List.mem_cons] at ha
        rcases ha with rfl | ha
        · exact step b (hon b (List.mem_append_left _ hb))
        · exact step b (hfrom a ha b hb)

/-- A search with enough steps meets just what its stack leads to. -/
theorem mem_visit_iff {us : List α} (hus : ∀ a ∈ us, ∀ b ∈ next a, b ∈ us) {limit : Nat}
    {stack : List α} (hstack : ∀ a ∈ stack, a ∈ us) (hlimit : us.length ≤ limit) {v : α} :
    v ∈ visit next limit stack .empty ↔ ∃ s ∈ stack, ReflTransGen (Leads next) s v := by
  refine ⟨visit_sound, ?_⟩
  rintro ⟨s, hs, hsv⟩
  obtain ⟨hon, hfrom⟩ := visit_closed hus limit stack .empty hstack
    (Nat.le_trans (List.length_filter_le _ _) hlimit)
  induction hsv with
  | refl => simpa using hon s hs
  | tail _ hbc ih => simpa using hfrom _ ih _ hbc

/-- A visit meets a vertex once, and only what has not been seen. -/
theorem nodup_visit (limit : Nat) :
    ∀ (stack : List α) (seen : IndexSet), (visit next limit stack seen).Nodup ∧
      ∀ a ∈ visit next limit stack seen, seen.contains a = false := by
  induction limit with
  | zero => simp [visit]
  | succ limit ih =>
    intro stack seen
    rw [visit]
    split
    · simp
    · next w rest hd =>
      obtain ⟨hnd, hnew⟩ := ih (next w ++ rest) (seen.insert w)
      simp only [IndexSet.contains_insert, Bool.or_eq_false_iff, decide_eq_false_iff_not] at hnew
      refine ⟨List.nodup_cons.2 ⟨fun hw => (hnew w hw).2 rfl, hnd⟩, fun a ha => ?_⟩
      rcases List.mem_cons.1 ha with rfl | ha
      · exact not_contains_of_dropWhile_cons hd
      · exact (hnew a ha).1

/-- Steps that a visit does not need change nothing. -/
theorem visit_add {us : List α} (hus : ∀ a ∈ us, ∀ b ∈ next a, b ∈ us) (limit more : Nat) :
    ∀ (stack : List α) (seen : IndexSet), (∀ a ∈ stack, a ∈ us) →
      (unseen us seen).length ≤ limit →
      visit next (limit + more) stack seen = visit next limit stack seen := by
  induction limit with
  | zero =>
    intro stack seen hstack hlimit
    have hall := contains_of_unseen_eq_nil hlimit
    have hd : stack.dropWhile seen.contains = [] :=
      List.dropWhile_eq_nil_iff.2 fun a ha => hall a (hstack a ha)
    cases more with
    | zero => rfl
    | succ more => simp [visit, hd]
  | succ limit ih =>
    intro stack seen hstack hlimit
    rw [Nat.add_right_comm, visit, visit]
    cases hd : stack.dropWhile seen.contains with
    | nil => rfl
    | cons w rest =>
      have hw : w ∈ us := hstack w (mem_of_dropWhile_cons hd)
      have hless := length_unseen_insert_lt hw (not_contains_of_dropWhile_cons hd)
      have hsub := (List.dropWhile_suffix (p := seen.contains) (l := stack)).subset
      rw [hd] at hsub
      refine congrArg (w :: ·) (ih (next w ++ rest) (seen.insert w) (fun a ha => ?_) (by omega))
      rcases List.mem_append.1 ha with ha | ha
      · exact hus w hw a ha
      · exact hstack a (hsub (List.mem_cons_of_mem w ha))

/-! ## Finished vertices -/

/-- `b` stands before each `a` of the list, or is one of `seen`, or `next` leads from it to `a`. -/
def BeforeIn (next : α → List α) (seen : IndexSet) (b a : α) (l : List α) : Prop :=
  ∀ l₁ l₂, l = l₁ ++ a :: l₂ →
    b ∈ l₁ ∨ seen.contains b = true ∨ ReflTransGen (Leads next) b a

theorem contains_insert_insertAll {seen : IndexSet} {w b : α} {xs : List α} :
    ((seen.insert w).insertAll xs).contains b = true ↔
      b ∈ xs ++ [w] ∨ seen.contains b = true := by
  simp only [IndexSet.contains_insertAll, IndexSet.contains_insert, Bool.or_eq_true,
    decide_eq_true_eq, List.mem_append, List.mem_singleton, eq_comm (a := w)]
  rw [or_comm, or_comm (a := seen.contains b = true), or_assoc]

/-- `w` is finished after what it leads to and before what comes next. -/
theorem beforeIn_append_cons {seen : IndexSet} {w a b : α} {xs ys : List α}
    (hxs : BeforeIn next (seen.insert w) b a xs)
    (hback : a ∈ xs → ReflTransGen (Leads next) w a)
    (hw : a = w → b ∈ xs ∨ (seen.insert w).contains b = true)
    (hys : BeforeIn next ((seen.insert w).insertAll xs) b a ys) :
    BeforeIn next seen b a (xs ++ w :: ys) := by
  intro l₁ l₂ h
  rcases append_cons_eq_append_cons h with ⟨rfl, rfl⟩ | ⟨m, rfl, hm⟩ | ⟨m, rfl⟩
  · rcases hw rfl with h | h
    · exact Or.inl h
    · rw [IndexSet.contains_insert, Bool.or_eq_true, decide_eq_true_eq] at h
      rcases h with h | rfl
      · exact Or.inr (Or.inl h)
      · exact Or.inr (Or.inr .refl)
  · rcases hys m l₂ hm with h | h | h
    · exact Or.inl (by simp [h])
    · rw [List.append_cons]
      exact (contains_insert_insertAll.1 h).imp (List.mem_append_left _) Or.inl
    · exact Or.inr (Or.inr h)
  · rcases hxs l₁ m rfl with h | h | h
    · exact Or.inl h
    · rw [IndexSet.contains_insert, Bool.or_eq_true, decide_eq_true_eq] at h
      rcases h with h | rfl
      · exact Or.inr (Or.inl h)
      · exact Or.inr (Or.inr (hback (by simp)))
    · exact Or.inr (Or.inr h)

/-- With enough steps everything on the stack is finished or has been seen, and what a vertex
leads to is finished before it unless it leads back. -/
theorem finished_closed {us : List α} (hus : ∀ a ∈ us, ∀ b ∈ next a, b ∈ us) (limit : Nat) :
    ∀ (stack : List α) (seen : IndexSet), (∀ a ∈ stack, a ∈ us) →
      (unseen us seen).length ≤ limit →
      (∀ a ∈ stack, a ∈ finished next limit stack seen ∨ seen.contains a = true) ∧
      ∀ a, ∀ b ∈ next a, BeforeIn next seen b a (finished next limit stack seen) := by
  induction limit with
  | zero =>
    intro stack seen hstack hlimit
    have hall := contains_of_unseen_eq_nil hlimit
    refine ⟨fun a ha => Or.inr (hall a (hstack a ha)), fun a b _ l₁ l₂ h => ?_⟩
    simp [finished] at h
  | succ limit ih =>
    intro stack seen hstack hlimit
    cases hd : stack.dropWhile seen.contains with
    | nil =>
      exact ⟨fun a ha => Or.inr (contains_of_dropWhile_eq_nil hd ha),
        fun a b _ l₁ l₂ h => by simp [finished, hd] at h⟩
    | cons w rest =>
      have hw : w ∈ us := hstack w (mem_of_dropWhile_cons hd)
      have hless := length_unseen_insert_lt hw (not_contains_of_dropWhile_cons hd)
      have hsub := (List.dropWhile_suffix (p := seen.contains) (l := stack)).subset
      rw [hd] at hsub
      obtain ⟨hon, hbefore⟩ := ih (next w) (seen.insert w) (fun a ha => hus w hw a ha) (by omega)
      have hsound : ∀ a ∈ finished next limit (next w) (seen.insert w),
          ReflTransGen (Leads next) w a := by
        intro a ha
        obtain ⟨s, hs, hsa⟩ := finished_sound ha
        exact .head hs hsa
      generalize hbey : finished next limit (next w) (seen.insert w) = beyond
        at hon hbefore hsound
      obtain ⟨hon', hbefore'⟩ := ih rest ((seen.insert w).insertAll beyond)
        (fun a ha => hstack a (hsub (List.mem_cons_of_mem w ha)))
        (by
          have := length_unseen_le us (seen.insert w)
            ((seen.insert w).insertAll beyond)
            (fun a ha => by simp [IndexSet.contains_insertAll, ha])
          omega)
      have hf : finished next (limit + 1) stack seen =
          beyond ++ w :: finished next limit rest ((seen.insert w).insertAll beyond) := by
        simp only [finished, hd, hbey]
      rw [hf]
      generalize finished next limit rest ((seen.insert w).insertAll beyond) = after at hon' hbefore'
      refine ⟨fun a ha => ?_, fun a b hb => ?_⟩
      · rcases contains_or_eq_or_mem hd ha with h | rfl | h
        · exact Or.inr h
        · simp
        · rcases hon' a h with h | h
          · simp [h]
          · rw [List.append_cons]
            exact (contains_insert_insertAll.1 h).imp_left (List.mem_append_left _)
      · refine beforeIn_append_cons (hbefore a b hb) (hsound a) ?_ (hbefore' a b hb)
        rintro rfl
        exact hon b hb

/-- A search finishes a vertex once, and only what has not been seen. -/
theorem nodup_finished (limit : Nat) :
    ∀ (stack : List α) (seen : IndexSet), (finished next limit stack seen).Nodup ∧
      ∀ a ∈ finished next limit stack seen, seen.contains a = false := by
  induction limit with
  | zero => simp [finished]
  | succ limit ih =>
    intro stack seen
    rw [finished]
    split
    · simp
    · next w rest hd =>
      obtain ⟨hnd, hnew⟩ := ih (next w) (seen.insert w)
      generalize finished next limit (next w) (seen.insert w) = beyond at hnd hnew
      obtain ⟨hnd', hnew'⟩ := ih rest ((seen.insert w).insertAll beyond)
      simp only [IndexSet.contains_insertAll, IndexSet.contains_insert, Bool.or_eq_false_iff,
        decide_eq_false_iff_not] at hnew hnew'
      refine ⟨?_, fun a ha => ?_⟩
      · rw [List.nodup_append, List.nodup_cons]
        refine ⟨hnd, ⟨fun hw => (hnew' w hw).1.2 rfl, hnd'⟩, ?_⟩
        rintro a ha b hb rfl
        rcases List.mem_cons.1 hb with rfl | hb
        · exact (hnew a ha).2 rfl
        · exact (hnew' a hb).2 ha
      · rcases List.mem_append.1 ha with ha | ha
        · exact (hnew a ha).1
        · rcases List.mem_cons.1 ha with rfl | ha
          · exact not_contains_of_dropWhile_cons hd
          · exact (hnew' a ha).1.1

theorem mem_finished {us : List α} (hus : ∀ a ∈ us, ∀ b ∈ next a, b ∈ us) {limit : Nat}
    {stack : List α} (hstack : ∀ a ∈ stack, a ∈ us) (hlimit : us.length ≤ limit) {v : α}
    (hv : v ∈ stack) : v ∈ finished next limit stack .empty := by
  obtain ⟨hon, -⟩ := finished_closed hus limit stack .empty hstack
    (Nat.le_trans (List.length_filter_le _ _) hlimit)
  simpa using hon v hv

/-- What a vertex leads to is finished before it, unless it leads back. -/
theorem finished_before {us : List α} (hus : ∀ a ∈ us, ∀ b ∈ next a, b ∈ us) {limit : Nat}
    {stack : List α} (hstack : ∀ a ∈ stack, a ∈ us) (hlimit : us.length ≤ limit) {a b : α}
    (hab : b ∈ next a) {l₁ l₂ : List α}
    (h : finished next limit stack .empty = l₁ ++ a :: l₂) :
    b ∈ l₁ ∨ ReflTransGen (Leads next) b a := by
  obtain ⟨-, hbefore⟩ := finished_closed hus limit stack .empty hstack
    (Nat.le_trans (List.length_filter_le _ _) hlimit)
  simpa using hbefore a b hab l₁ l₂ h

end AsyncOrder
