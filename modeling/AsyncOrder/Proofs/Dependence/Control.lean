import AsyncOrder.Dependence.Control
import AsyncOrder.Proofs.Graph.Search

/-!
# What control tokens are found

Whatever dependency lists a program has, `controlTokens` lists just the control tokens that the
dependencies of an operation lead back to, each once, and takes no more steps than there are
values:

    v ∈ p.controlTokens o ↔ p.isControlToken v ∧ ∃ s ∈ p.deps o, ReflTransGen p.LeadsBack s v
-/

namespace AsyncOrder.Program

open Relation

variable {p : Program} {o : OpId} {t v : ValueId}

/-- Dependencies are values of the program. -/
def NamesDeps (p : Program) : Prop := ∀ o, ∀ v ∈ p.deps o, v.index < p.values.size

/-- `t` is no control token, and its producer is asynchronous and waits on `v`. -/
def LeadsBack (p : Program) (t v : ValueId) : Prop :=
  p.isControlToken t = false ∧
    ∃ z, p.definingOp? t = some z ∧ (p.kind z).isAsync = true ∧ v ∈ p.deps z

theorem leads_waitsBehind : Leads p.waitsBehind t v ↔ p.LeadsBack t v := by
  rw [Leads, waitsBehind, LeadsBack]
  cases hcontrol : p.isControlToken t with
  | true => simp
  | false =>
    cases hdefines : p.definingOp? t with
    | none => simp
    | some z => by_cases hasync : (p.kind z).isAsync = true <;> simp [hasync]

theorem leads_waitsBehind_eq : Leads p.waitsBehind = p.LeadsBack :=
  funext fun _ => funext fun _ => propext leads_waitsBehind

/-- The values of the program. -/
def valueIds (p : Program) : List ValueId := (List.range p.values.size).map .mk

theorem mem_valueIds : v ∈ p.valueIds ↔ v.index < p.values.size := by
  simp only [valueIds, List.mem_map, List.mem_range]
  exact ⟨fun ⟨i, hi, heq⟩ => heq ▸ hi, fun h => ⟨v.index, h, rfl⟩⟩

theorem length_valueIds : p.valueIds.length = p.values.size := by
  rw [valueIds, List.length_map, List.length_range]

namespace NamesDeps

variable (h : p.NamesDeps)
include h

theorem mem_valueIds_of_mem_deps : ∀ v ∈ p.deps o, v ∈ p.valueIds := fun v hv =>
  mem_valueIds.2 (h o v hv)

theorem mem_valueIds_of_leads : ∀ t ∈ p.valueIds, ∀ v ∈ p.waitsBehind t, v ∈ p.valueIds := by
  intro t _ v hv
  obtain ⟨-, z, -, -, hz⟩ := leads_waitsBehind.1 hv
  exact h.mem_valueIds_of_mem_deps v hz

theorem mem_controlTokens_iff : v ∈ p.controlTokens o ↔
    p.isControlToken v = true ∧ ∃ s ∈ p.deps o, ReflTransGen p.LeadsBack s v := by
  rw [controlTokens, List.mem_filter, and_comm, mem_visit_iff h.mem_valueIds_of_leads
    h.mem_valueIds_of_mem_deps (Nat.le_of_eq length_valueIds), leads_waitsBehind_eq]

/-- The search ends within as many steps as there are values. -/
theorem controlTokens_eq (more : Nat) :
    (visit p.waitsBehind (p.values.size + more) (p.deps o) .empty).filter p.isControlToken =
      p.controlTokens o := by
  rw [visit_add h.mem_valueIds_of_leads _ more _ _ h.mem_valueIds_of_mem_deps, controlTokens]
  exact Nat.le_trans (List.length_filter_le _ _) (Nat.le_of_eq length_valueIds)

theorem lt_of_mem_controlTokens (hv : v ∈ p.controlTokens o) : v.index < p.values.size := by
  obtain ⟨-, s, hs, hsv⟩ := h.mem_controlTokens_iff.1 hv
  rcases ReflTransGen.cases_tail hsv with rfl | ⟨t, -, -, z, -, -, hz⟩
  · exact h o v hs
  · exact h z v hz

end NamesDeps

theorem nodup_controlTokens : (p.controlTokens o).Nodup := (nodup_visit _ _ _).1.filter _

end AsyncOrder.Program
