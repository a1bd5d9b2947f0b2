import AsyncOrder.Proofs.Dependence.Control
import AsyncOrder.Proofs.Dependence.Hazards

/-!
# How buffers are used

A call knows the buffers that it takes by the names of its parameters, and may pass them on to
calls in its body.  A use of a parameter is a use of what the parameter receives (`UsedAs`), and a
buffer is read if it is used for reading, and for nothing else:

    p.classify v = .read ↔ p.UsedAs v .read ∧ ∀ role, p.UsedAs v role → role.writes = false
                                                                              (classify_exact)

The roles of all uses are found within as many steps as there are values.
-/

namespace AsyncOrder

open Program Relation

variable {p : Program} {o : OpId} {i : Nat} {v w : ValueId} {role : Role}

namespace Program

/-! ## Passing on -/

/-- A call takes `v` and knows it as its parameter `w`. -/
def HandsOn (p : Program) (v w : ValueId) : Prop := ∃ o ∈ p.walk, (v, w) ∈ p.hierarchyPairs o

/-- What pairs a call has, it has as a call, with operands and arguments of its body. -/
theorem call_of_pair (h : (p.hierarchyPairs o)[i]? = some (v, w)) :
    ∃ level ids b, p.kind o = .hierarchy level ids ∧ p.body? o = some b ∧
      (p.op o).operands[i]? = some v ∧ (p.block b).args[ids + i]? = some w := by
  rw [hierarchyPairs] at h
  split at h
  · next level ids b hkind hbody =>
    obtain ⟨hv, hw⟩ := List.getElem?_zip_eq_some.1 h
    exact ⟨level, ids, b, hkind, hbody, hv, List.getElem?_drop ▸ hw⟩
  · cases h

theorem leads_receivers : Leads p.receivers v w ↔ p.HandsOn v w := by
  simp only [Leads, receivers, HandsOn, List.mem_filterMap, Prod.exists, mem_operandUses,
    Option.map_eq_some_iff, exists_eq_right]
  constructor
  · rintro ⟨o, i, ⟨ho, hv⟩, u, hpair⟩
    obtain ⟨-, -, -, -, -, hu, -⟩ := call_of_pair hpair
    obtain rfl := Option.some.inj (hv.symm.trans hu)
    exact ⟨o, ho, List.mem_of_getElem? hpair⟩
  · rintro ⟨o, ho, hpair⟩
    obtain ⟨i, hi⟩ := List.mem_iff_getElem?.1 hpair
    obtain ⟨-, -, -, -, -, hv, -⟩ := call_of_pair hi
    exact ⟨o, i, ⟨ho, hv⟩, v, hi⟩

theorem leads_receivers_eq : Leads p.receivers = p.HandsOn :=
  funext fun _ => funext fun _ => propext leads_receivers

/-! ## Roles -/

/-- `v` is used in the role: as an operand of something that is no call, or by a parameter that
receives it. -/
inductive UsedAs (p : Program) : ValueId → Role → Prop
  | operand {o : OpId} {i : Nat} {v : ValueId} (ho : o ∈ p.walk)
      (hv : (p.op o).operands[i]? = some v) (hcall : (p.kind o).isHierarchy = false) :
      UsedAs p v ((p.kind o).operandRole i (p.op o).operands.length)
  | passed {v w : ValueId} {role : Role} (h : p.HandsOn v w) (hw : UsedAs p w role) :
      UsedAs p v role

theorem mem_directRoles : role ∈ p.directRoles v ↔
    ∃ o ∈ p.walk, ∃ i, (p.op o).operands[i]? = some v ∧ (p.kind o).isHierarchy = false ∧
      (p.kind o).operandRole i (p.op o).operands.length = role := by
  simp only [directRoles, List.mem_filterMap, Prod.exists, mem_operandUses, kind]
  refine exists_congr fun o => ?_
  cases (p.op o).kind.isHierarchy <;> simp [and_assoc]

/-- The roles in which a value is used are those of what it is passed on as. -/
theorem usedAs_iff : p.UsedAs v role ↔
    ∃ w, ReflTransGen p.HandsOn v w ∧ role ∈ p.directRoles w := by
  constructor
  · intro h
    induction h with
    | operand ho hv hcall => exact ⟨_, .refl, mem_directRoles.2 ⟨_, ho, _, hv, hcall, rfl⟩⟩
    | passed h _ ih =>
      obtain ⟨u, hu, hrole⟩ := ih
      exact ⟨u, .head h hu, hrole⟩
  · rintro ⟨w, hvw, hrole⟩
    induction hvw using ReflTransGen.head_induction_on with
    | refl =>
      obtain ⟨o, ho, i, hv, hcall, rfl⟩ := mem_directRoles.1 hrole
      exact .operand ho hv hcall
    | head h _ ih => exact .passed h ih

/-! ## The search for roles -/

section

variable (hp : p.Linked)
include hp

theorem Linked.mem_valueIds_of_leads : ∀ u ∈ p.valueIds, ∀ w ∈ p.receivers u, w ∈ p.valueIds := by
  intro u _ w hw
  obtain ⟨o, -, hpair⟩ := leads_receivers.1 hw
  obtain ⟨i, hi⟩ := List.mem_iff_getElem?.1 hpair
  obtain ⟨_, _, _, _, _, _, harg⟩ := call_of_pair hi
  exact mem_valueIds.2 (hp.arg_lt (List.mem_of_getElem? harg))

/-- The search ends within as many steps as there are values. -/
theorem Linked.visit_receivers_eq (hv : v.index < p.values.size) (more : Nat) :
    visit p.receivers (p.values.size + more) [v] .empty =
      visit p.receivers p.values.size [v] .empty := by
  refine visit_add hp.mem_valueIds_of_leads _ more _ _ ?_ ?_
  · exact fun u hu => List.mem_singleton.1 hu ▸ mem_valueIds.2 hv
  · exact Nat.le_trans (List.length_filter_le _ _) (Nat.le_of_eq length_valueIds)

theorem Linked.mem_visit_receivers (hv : v.index < p.values.size) :
    w ∈ visit p.receivers p.values.size [v] .empty ↔ ReflTransGen p.HandsOn v w := by
  rw [mem_visit_iff hp.mem_valueIds_of_leads (fun u hu => List.mem_singleton.1 hu ▸
    mem_valueIds.2 hv) (Nat.le_of_eq length_valueIds), leads_receivers_eq]
  simp

theorem Linked.classify_eq_read_iff (hv : v.index < p.values.size) :
    p.classify v = .read ↔ p.UsedAs v .read ∧ ∀ role, p.UsedAs v role → role.writes = false := by
  have hroles : ∀ role, role ∈ (visit p.receivers p.values.size [v] .empty).flatMap p.directRoles ↔
      p.UsedAs v role := fun role => by
    simp only [List.mem_flatMap, hp.mem_visit_receivers hv, usedAs_iff]
  simp only [← hroles, classify]
  split
  · next h =>
    refine iff_of_false (fun h => by cases h) ?_
    rintro ⟨hread, hwrites⟩
    rw [Bool.or_eq_true, List.any_eq_true, Bool.not_eq_true', List.any_eq_false] at h
    rcases h with ⟨role, hrole, h⟩ | h
    · rw [hwrites role hrole] at h
      cases h
    · exact h _ hread (by simp)
  · next h =>
    refine iff_of_true rfl ?_
    rw [Bool.or_eq_true, not_or, List.any_eq_true, Bool.not_eq_true', Bool.not_eq_false,
      List.any_eq_true] at h
    obtain ⟨hwrites, role, hrole, hread⟩ := h
    refine ⟨of_decide_eq_true hread ▸ hrole, fun role hrole => ?_⟩
    exact Bool.eq_false_iff.2 fun hw => hwrites ⟨role, hrole, hw⟩

end

theorem classify_eq_read_or_write (v : ValueId) : p.classify v = .read ∨ p.classify v = .write := by
  rw [classify]
  split
  · exact Or.inr rfl
  · exact Or.inl rfl

/-! ## Buffers that are read -/

/-- Whatever a buffer is passed on as is a buffer. -/
theorem WellFormed.isMemref_of_handsOn (hp : p.WellFormed) (h : ReflTransGen p.HandsOn v w)
    (hv : (p.valueType v).isMemref = true) : (p.valueType w).isMemref = true := by
  induction h with
  | refl => exact hv
  | tail _ hstep ih =>
    obtain ⟨o, -, hpair⟩ := hstep
    obtain ⟨i, hi⟩ := List.mem_iff_getElem?.1 hpair
    obtain ⟨level, ids, -, hkind, -, hoperand, -⟩ := call_of_pair hi
    obtain ⟨inner, hinner, htype⟩ := hp.param_of_operand (lt_of_operand hoperand) hkind hoperand
    obtain ⟨-, rfl⟩ := Prod.mk.inj (Option.some.inj (hinner.symm.trans hi))
    rw [htype, ih]

/-- No buffer is a bound or a step of a loop. -/
theorem WellFormed.writes_of_loop (hp : p.WellFormed) (hv : (p.op o).operands[i]? = some v)
    (hmemref : (p.valueType v).isMemref = true) (hloop : (p.kind o).isLoop = true) :
    ((p.kind o).operandRole i (p.op o).operands.length).writes = true := by
  obtain ⟨hlt, -⟩ := List.getElem?_eq_some_iff.1 hv
  have hshape := (hp.laidOut o (lt_of_operand hv)).2.2
  cases hkind : p.kind o with
  | loop kind =>
    rw [hkind] at hshape
    obtain ⟨body, -, htypes, -⟩ := hshape
    have htype := congrArg (·[i]?) htypes
    simp only [List.getElem?_map, hv, Option.map_some] at htype
    match i, htype with
    | 0, htype | 1, htype | 2, htype =>
      rw [← Option.some.inj htype.symm] at hmemref
      cases hmemref
    | i + 3, htype =>
      rw [OpKind.operandRole, if_neg]
      · rfl
      · simp only [Bool.or_eq_true, decide_eq_true_eq]
        omega
  | _ => rw [hkind] at hloop; cases hloop

end Program

/-- A buffer is read just if some use of it reads and none writes, where the uses of a parameter
are uses of what it receives; and then nothing that takes it writes it, carries it or yields it. -/
theorem classify_exact {source : String} (hsource : readProgram source = .ok p)
    (hmemref : (p.valueType v).isMemref = true) :
    (∀ more, visit p.receivers (p.values.size + more) [v] .empty =
      visit p.receivers p.values.size [v] .empty) ∧
    (p.classify v = .read ↔ p.UsedAs v .read ∧ ∀ role, p.UsedAs v role → role.writes = false) ∧
    (p.classify v ≠ .read → p.classify v = .write) ∧
    (p.classify v = .read → ∀ w, ReflTransGen p.HandsOn v w → ∀ o i,
      (p.op o).operands[i]? = some w →
        (∃ inner, (p.hierarchyPairs o)[i]? = some (w, inner)) ∨
        (p.kind o).isHierarchy = false ∧ (p.kind o).isLoop = false ∧ p.kind o ≠ .yield ∧
          (p.operandRole o i).writes = false) := by
  have hp := wellFormed_of_readProgram hsource
  have hv : v.index < p.values.size := by
    by_contra hle
    rw [valueType, value, Array.getElem?_eq_none (Nat.le_of_not_lt hle)] at hmemref
    cases hmemref
  have hiff := hp.linked.classify_eq_read_iff hv
  refine ⟨hp.linked.visit_receivers_eq hv, hiff,
    fun h => (classify_eq_read_or_write v).resolve_left h, fun hread w hw o i hoperand => ?_⟩
  have ho := lt_of_operand hoperand
  cases hcall : (p.kind o).isHierarchy with
  | true =>
    obtain ⟨level, ids, hkind⟩ : ∃ level ids, p.kind o = .hierarchy level ids := by
      cases hk : p.kind o <;> simp_all [OpKind.isHierarchy]
    obtain ⟨inner, hpair, -⟩ := hp.param_of_operand ho hkind hoperand
    exact Or.inl ⟨inner, hpair⟩
  | false =>
    have hrole := (hiff.1 hread).2 _ (usedAs_iff.2 ⟨w, hw, mem_directRoles.2
      ⟨o, hp.mem_walk.2 ho, i, hoperand, hcall, rfl⟩⟩)
    refine Or.inr ⟨rfl, ?_, ?_, ?_⟩
    · refine Bool.eq_false_iff.2 fun hloop => ?_
      rw [hp.writes_of_loop hoperand (hp.isMemref_of_handsOn hw hmemref) hloop] at hrole
      cases hrole
    · intro hyield
      rw [hyield] at hrole
      cases hrole
    · rwa [operandRole, ← kind, if_neg (by rw [hcall]; exact Bool.false_ne_true)]

/-- `%a` is read two calls deep, where `%b` is written; a third parameter receives `%a` to no
purpose. -/
def passedDown : String := "func @f(%a: memref<1, L3>, %b: memref<1, L3>) \x7b
  %h = launch args(%x = %a, %y = %b) \x7b
    %s = segment args(%u = %x, %v = %y, %w = %x) \x7b
      %t = transfer %v <- %u
      end
    \x7d
    end
  \x7d
\x7d
"

theorem classify_exact_passedDown : ∃ p, readProgram passedDown = .ok p ∧
    ((p.valueType ⟨0⟩).isMemref = true ∧ p.classify ⟨0⟩ = .read ∧ p.UsedAs ⟨0⟩ .read ∧
      ∀ role, p.UsedAs ⟨0⟩ role → role.writes = false) ∧
    (p.valueType ⟨1⟩).isMemref = true ∧ p.classify ⟨1⟩ = .write ∧
      ¬(p.UsedAs ⟨1⟩ .read ∧ ∀ role, p.UsedAs ⟨1⟩ role → role.writes = false) := by
  obtain ⟨p, hsource, htest⟩ := accepts_iff.1 (show accepts passedDown (fun p =>
    (p.valueType ⟨0⟩).isMemref && decide (p.classify ⟨0⟩ = .read) &&
      (p.valueType ⟨1⟩).isMemref && decide (p.classify ⟨1⟩ = .write)) = true by decide +kernel)
  simp only [Bool.and_eq_true, decide_eq_true_eq] at htest
  obtain ⟨⟨⟨ha, hread⟩, hb⟩, hwrite⟩ := htest
  obtain ⟨hused, hall⟩ := (classify_exact hsource ha).2.1.1 hread
  refine ⟨p, hsource, ⟨ha, hread, hused, hall⟩, hb, hwrite, fun h => ?_⟩
  rw [(classify_exact hsource hb).2.1.2 h] at hwrite
  cases hwrite

end AsyncOrder
