import Mathlib.Logic.Relation

/-!
# Ways that are held

A way leads from one place to another.  Some of its steps hold it, and it comes to no gate before
the first of these:

    u ─ free ─ a ─ held ─ b ─ any step ─ gate

The ways between other places are the same when a place is taken out and what leads to it is joined
with what it leads to (`Contracts.way_iff`, and for paths `Contracts.transGen_iff`), and when a gate
opens, where the last held steps on the ways to the gate come to lead to it, and nothing else does
(`Opens.way_iff`).
-/

namespace AsyncOrder

open Relation

variable {α : Type} {step held step' held' : α → α → Prop} {gate gate' live : α → Prop}
variable {u a b d : α} {isHeld : Bool}

/-- A way from `u`, and whether it is held. -/
inductive Way (step held : α → α → Prop) (gate : α → Prop) (u : α) : Bool → α → Prop
  | refl : Way step held gate u false u
  | free {a b : α} : Way step held gate u false a → step a b → ¬ gate b →
      Way step held gate u false b
  | hold {a b : α} : Way step held gate u false a → held a b → Way step held gate u true b
  | tail {a b : α} : Way step held gate u true a → step a b → Way step held gate u true b

theorem Way.reaches (hheld : ∀ a b, held a b → step a b) (h : Way step held gate u isHeld b) :
    ReflTransGen step u b := by
  induction h with
  | refl => exact .refl
  | free _ hab _ ih => exact ih.tail hab
  | hold _ hab ih => exact ih.tail (hheld _ _ hab)
  | tail _ hab ih => exact ih.tail hab

/-- Where no gate is left, every path is a way. -/
theorem exists_way_iff (hheld : ∀ a b, held a b → step a b) (hgate : ∀ b, ¬ gate b) :
    (∃ isHeld, Way step held gate u isHeld b) ↔ ReflTransGen step u b := by
  refine ⟨fun ⟨_, h⟩ => h.reaches hheld, fun h => ⟨false, ?_⟩⟩
  induction h with
  | refl => exact .refl
  | tail _ hab ih => exact .free ih hab (hgate _)

theorem Way.mono_gate (hgate : ∀ a b, step a b → gate' b → gate b)
    (h : Way step held gate u isHeld b) : Way step held gate' u isHeld b := by
  induction h with
  | refl => exact .refl
  | free _ hab hb ih => exact .free ih hab fun hb' => hb (hgate _ _ hab hb')
  | hold _ hab ih => exact .hold ih hab
  | tail _ hab ih => exact .tail ih hab

/-- Only where steps lead it matters what is a gate. -/
theorem way_congr_gate (hgate : ∀ a b, step a b → (gate b ↔ gate' b)) :
    Way step held gate u isHeld b ↔ Way step held gate' u isHeld b :=
  ⟨.mono_gate fun a b hab => (hgate a b hab).2, .mono_gate fun a b hab => (hgate a b hab).1⟩

/-- A path that comes to no gate is a way. -/
theorem way_of_reaches (h : ReflTransGen step u b)
    (hgate : ∀ g, TransGen step u g → ReflTransGen step g b → ¬ gate g) :
    Way step held gate u false b := by
  induction h with
  | refl => exact .refl
  | @tail a b hua hab ih =>
    exact .free (ih fun g hug hga => hgate g hug (hga.tail hab)) hab
      (hgate b (.tail' hua hab) .refl)

/-- After a step that holds it, a way is held. -/
theorem Way.then_held (hheld : ∀ a b, held a b → step a b) (h : Way step held gate u isHeld a)
    (hab : held a b) : Way step held gate u true b := by
  cases isHeld with
  | false => exact .hold h hab
  | true => exact .tail h (hheld a b hab)

theorem Way.trans_reaches (h : Way step held gate u true a) (hab : ReflTransGen step a b) :
    Way step held gate u true b := by
  induction hab with
  | refl => exact h
  | tail _ hbc ih => exact .tail ih hbc

/-! ## A place is taken out -/

/-- The place `d` is taken out: what led to it leads to what it led to, and holds if one of the two
steps did. -/
structure Contracts (live gate : α → Prop) (d : α) (step held step' held' : α → α → Prop) :
    Prop where
  gone : ¬ live d
  no_gate : ¬ gate d
  held_step : ∀ a b, held a b → step a b
  before : ∀ a b, live b → step a b → live a ∨ a = d
  before_gone : ∀ a, step a d → live a
  step_iff : ∀ a b, live b → (step' a b ↔ live a ∧ step a b ∨ step a d ∧ step d b)
  held_iff : ∀ a b, live b → (held' a b ↔
    live a ∧ held a b ∨ held a d ∧ step d b ∨ step a d ∧ held d b)

namespace Contracts

variable (h : Contracts live gate d step held step' held')
include h

theorem way (hu : live u) (hway : Way step held gate u isHeld b) :
    (live b → Way step' held' gate u isHeld b) ∧ (b = d → ∃ a,
      Way step' held' gate u isHeld a ∧ step a d ∨
        isHeld = true ∧ Way step' held' gate u false a ∧ held a d) := by
  -- a way to `d` waits for its next step
  induction hway with
  | refl => exact ⟨fun _ => .refl, fun heq => absurd (heq ▸ hu) h.gone⟩
  | @free a b _ hab hgate ih =>
    refine ⟨fun hb => ?_, ?_⟩
    · rcases h.before a b hb hab with ha | rfl
      · exact .free (ih.1 ha) ((h.step_iff a b hb).2 (Or.inl ⟨ha, hab⟩)) hgate
      · obtain ⟨c, ⟨hc, hca⟩ | ⟨hfalse, -⟩⟩ := ih.2 rfl
        · exact .free hc ((h.step_iff c b hb).2 (Or.inr ⟨hca, hab⟩)) hgate
        · cases hfalse
    · rintro rfl
      exact ⟨a, Or.inl ⟨ih.1 (h.before_gone a hab), hab⟩⟩
  | @hold a b _ hab ih =>
    refine ⟨fun hb => ?_, ?_⟩
    · rcases h.before a b hb (h.held_step a b hab) with ha | rfl
      · exact .hold (ih.1 ha) ((h.held_iff a b hb).2 (Or.inl ⟨ha, hab⟩))
      · obtain ⟨c, ⟨hc, hca⟩ | ⟨hfalse, -⟩⟩ := ih.2 rfl
        · exact .hold hc ((h.held_iff c b hb).2 (Or.inr (Or.inr ⟨hca, hab⟩)))
        · cases hfalse
    · rintro rfl
      exact ⟨a, Or.inr ⟨rfl, ih.1 (h.before_gone a (h.held_step a b hab)), hab⟩⟩
  | @tail a b _ hab ih =>
    refine ⟨fun hb => ?_, ?_⟩
    · rcases h.before a b hb hab with ha | rfl
      · exact .tail (ih.1 ha) ((h.step_iff a b hb).2 (Or.inl ⟨ha, hab⟩))
      · obtain ⟨c, ⟨hc, hca⟩ | ⟨-, hc, hca⟩⟩ := ih.2 rfl
        · exact .tail hc ((h.step_iff c b hb).2 (Or.inr ⟨hca, hab⟩))
        · exact .hold hc ((h.held_iff c b hb).2 (Or.inr (Or.inl ⟨hca, hab⟩)))
    · rintro rfl
      exact ⟨a, Or.inl ⟨ih.1 (h.before_gone a hab), hab⟩⟩

theorem way_back (hway : Way step' held' gate u isHeld b) (hb : live b) :
    Way step held gate u isHeld b := by
  induction hway with
  | refl => exact .refl
  | @free a b _ hab hgate ih =>
    rcases (h.step_iff a b hb).1 hab with ⟨ha, hab⟩ | ⟨had, hdb⟩
    · exact .free (ih ha) hab hgate
    · exact .free (.free (ih (h.before_gone a had)) had h.no_gate) hdb hgate
  | @hold a b _ hab ih =>
    rcases (h.held_iff a b hb).1 hab with ⟨ha, hab⟩ | ⟨had, hdb⟩ | ⟨had, hdb⟩
    · exact .hold (ih ha) hab
    · exact .tail (.hold (ih (h.before_gone a (h.held_step a d had))) had) hdb
    · exact .hold (.free (ih (h.before_gone a had)) had h.no_gate) hdb
  | @tail a b _ hab ih =>
    rcases (h.step_iff a b hb).1 hab with ⟨ha, hab⟩ | ⟨had, hdb⟩
    · exact .tail (ih ha) hab
    · exact .tail (.tail (ih (h.before_gone a had)) had) hdb

theorem way_iff (hu : live u) (hb : live b) :
    Way step' held' gate u isHeld b ↔ Way step held gate u isHeld b :=
  ⟨fun hway => h.way_back hway hb, fun hway => (h.way hu hway).1 hb⟩

/-- A path that comes to `d` waits for its next step. -/
theorem transGen (hu : live u) (hub : TransGen step u b) :
    (live b → TransGen step' u b) ∧ (b = d → ∃ a, ReflTransGen step' u a ∧ step a d) := by
  induction hub with
  | @single b hub =>
    refine ⟨fun hb => .single ((h.step_iff u b hb).2 (Or.inl ⟨hu, hub⟩)), ?_⟩
    rintro rfl
    exact ⟨u, .refl, hub⟩
  | @tail a b _ hab ih =>
    refine ⟨fun hb => ?_, ?_⟩
    · rcases h.before a b hb hab with ha | rfl
      · exact (ih.1 ha).tail ((h.step_iff a b hb).2 (Or.inl ⟨ha, hab⟩))
      · obtain ⟨c, hc, hca⟩ := ih.2 rfl
        exact .tail' hc ((h.step_iff c b hb).2 (Or.inr ⟨hca, hab⟩))
    · rintro rfl
      exact ⟨a, (ih.1 (h.before_gone a hab)).to_reflTransGen, hab⟩

theorem transGen_back (hub : TransGen step' u b) (hb : live b) : TransGen step u b := by
  induction hub with
  | @single b hub =>
    rcases (h.step_iff u b hb).1 hub with ⟨-, hub⟩ | ⟨hud, hdb⟩
    · exact .single hub
    · exact .tail (.single hud) hdb
  | @tail a b _ hab ih =>
    rcases (h.step_iff a b hb).1 hab with ⟨ha, hab⟩ | ⟨had, hdb⟩
    · exact (ih ha).tail hab
    · exact ((ih (h.before_gone a had)).tail had).tail hdb

theorem transGen_iff (hu : live u) (hb : live b) : TransGen step' u b ↔ TransGen step u b :=
  ⟨fun hub => h.transGen_back hub hb, fun hub => (h.transGen hu hub).1 hb⟩

end Contracts

/-! ## A gate opens -/

/-- The gate `o` opens: the last held steps on the ways to it lead to it now, and nothing else does.
Other steps stay as they are. -/
structure Opens (gate gate' : α → Prop) (o : α) (step held plain step' held' : α → α → Prop) :
    Prop where
  isGate : gate o
  gate_iff : ∀ b, gate' b ↔ gate b ∧ b ≠ o
  split : ∀ a b, step a b ↔ held a b ∨ plain a b
  step_iff : ∀ a b, b ≠ o → (step' a b ↔ step a b)
  held_iff : ∀ a b, b ≠ o → (held' a b ↔ held a b)
  step_open : ∀ a, step' a o ↔ held' a o
  held_open : ∀ a, held' a o ↔ ∃ c, held a c ∧ ReflTransGen plain c o

namespace Opens

variable {o : α} {plain : α → α → Prop} (h : Opens gate gate' o step held plain step' held')
include h

theorem held_step (a b : α) (hab : held a b) : step a b := (h.split a b).2 (Or.inl hab)

theorem held_step' (a b : α) (hab : held' a b) : step' a b := by
  by_cases hne : b = o
  · subst hne
    exact (h.step_open a).2 hab
  · exact (h.step_iff a b hne).2 (h.held_step a b ((h.held_iff a b hne).1 hab))

theorem way (hway : Way step held gate u isHeld b) : Way step' held' gate' u isHeld b ∧
    (isHeld = true → ∃ k a c, Way step' held' gate' u k a ∧ held a c ∧ ReflTransGen plain c b) := by
  -- the last step that holds is kept in mind until the way comes to the gate
  induction hway with
  | refl => exact ⟨.refl, Bool.noConfusion⟩
  | @free a b _ hab hgate ih =>
    have hne : b ≠ o := fun heq => hgate (heq ▸ h.isGate)
    refine ⟨.free ih.1 ((h.step_iff a b hne).2 hab) fun hb => ?_, Bool.noConfusion⟩
    exact hgate ((h.gate_iff b).1 hb).1
  | @hold a b _ hab ih =>
    refine ⟨.hold ih.1 ?_, fun _ => ⟨false, a, b, ih.1, hab, .refl⟩⟩
    by_cases hne : b = o
    · subst hne
      exact (h.held_open a).2 ⟨b, hab, .refl⟩
    · exact (h.held_iff a b hne).2 hab
  | @tail a b _ hab ih =>
    obtain ⟨k, a', c, hway, hac, hca⟩ := ih.2 rfl
    have hlast : ∃ k a c, Way step' held' gate' u k a ∧ held a c ∧ ReflTransGen plain c b := by
      rcases (h.split a b).1 hab with hab | hab
      · exact ⟨true, a, b, ih.1, hab, .refl⟩
      · exact ⟨k, a', c, hway, hac, hca.tail hab⟩
    refine ⟨?_, fun _ => hlast⟩
    by_cases hne : b = o
    · subst hne
      obtain ⟨k, a, c, hway, hac, hcb⟩ := hlast
      exact hway.then_held h.held_step' ((h.held_open a).2 ⟨c, hac, hcb⟩)
    · exact .tail ih.1 ((h.step_iff a b hne).2 hab)

theorem way_back (hway : Way step' held' gate' u isHeld b) :
    ∃ k, (isHeld = true → k = true) ∧ Way step held gate u k b := by
  have hopen : ∀ a, held' a o → ∀ k, Way step held gate u k a → Way step held gate u true o := by
    intro a hao k hway
    obtain ⟨c, hac, hco⟩ := (h.held_open a).1 hao
    refine (hway.then_held h.held_step hac).trans_reaches (ReflTransGen.mono ?_ _ _ hco)
    exact fun a b hab => (h.split a b).2 (Or.inr hab)
  induction hway with
  | refl => exact ⟨false, Bool.noConfusion, .refl⟩
  | @free a b _ hab hgate ih =>
    obtain ⟨k, -, hway⟩ := ih
    by_cases hne : b = o
    · subst hne
      exact ⟨true, fun _ => rfl, hopen a ((h.step_open a).1 hab) k hway⟩
    · have hab := (h.step_iff a b hne).1 hab
      have hgate : ¬ gate b := fun hb => hgate ((h.gate_iff b).2 ⟨hb, hne⟩)
      cases k with
      | false => exact ⟨false, Bool.noConfusion, .free hway hab hgate⟩
      | true => exact ⟨true, fun _ => rfl, .tail hway hab⟩
  | @hold a b _ hab ih =>
    obtain ⟨k, -, hway⟩ := ih
    refine ⟨true, fun _ => rfl, ?_⟩
    by_cases hne : b = o
    · subst hne
      exact hopen a hab k hway
    · exact hway.then_held h.held_step ((h.held_iff a b hne).1 hab)
  | @tail a b _ hab ih =>
    obtain ⟨k, hk, hway⟩ := ih
    obtain rfl := hk rfl
    refine ⟨true, fun _ => rfl, ?_⟩
    by_cases hne : b = o
    · subst hne
      exact hopen a ((h.step_open a).1 hab) true hway
    · exact .tail hway ((h.step_iff a b hne).1 hab)

theorem way_iff :
    (∃ k, Way step' held' gate' u k b) ↔ ∃ k, Way step held gate u k b :=
  ⟨fun ⟨_, hway⟩ => let ⟨k, _, hway⟩ := h.way_back hway; ⟨k, hway⟩,
    fun ⟨k, hway⟩ => ⟨k, (h.way hway).1⟩⟩

end Opens

end AsyncOrder
