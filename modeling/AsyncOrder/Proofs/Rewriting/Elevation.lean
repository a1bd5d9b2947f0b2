import AsyncOrder.Proofs.Scope.Tokens
import AsyncOrder.Rewriting.Tokens

/-!
# Elevated operations

What is visible at an operation is an argument of a block around it or a result of something that
precedes it.  What conditionals yield in its place is so too, or a result of something that lies,
through conditionals, in what precedes the operation; and what precedes it is then what
`elevated` finds:

    v visible at o, v leads to w, w a result of z
      → e precedes o, z lies in e through conditionals                (offers_of_leads)
      → p.elevated z o = e                                            (elevated_eq)
-/

namespace AsyncOrder.Program

open Relation

variable {p : Program} {o x y z e a : OpId} {v w token : ValueId}

/-! ## Around an operation -/

/-- `z` is around `o`, and not a call. -/
def Outer (p : Program) (o z : OpId) : Prop :=
  p.parentOp? o = some z ∧ (p.kind z).isHierarchy = false

/-- `z` comes before `o` or before an operation around it. -/
def Precedes (p : Program) (z o : OpId) : Prop :=
  ∃ a, ReflTransGen p.Outer o a ∧ p.isBefore z a = true

theorem visible_iff : p.Visible o v ↔ ∃ a, ReflTransGen p.Outer o a ∧
    (v ∈ (p.block (p.op a).parent).args ∨ ∃ z, p.isBefore z a = true ∧ v ∈ (p.op z).results) := by
  constructor
  · intro h
    induction h with
    | arg hv => exact ⟨_, .refl, Or.inl hv⟩
    | result hz hv => exact ⟨_, .refl, Or.inr ⟨_, hz, hv⟩⟩
    | outer hz hk _ ih =>
      obtain ⟨a, ha, hv⟩ := ih
      exact ⟨a, .head ⟨hz, hk⟩ ha, hv⟩
    | beyond h => exact h.elim
  · rintro ⟨a, ha, hv⟩
    induction ha using ReflTransGen.head_induction_on with
    | refl =>
      rcases hv with hv | ⟨z, hz, hv⟩
      · exact .arg hv
      · exact .result hz hv
    | head h _ ih => exact .outer h.1 h.2 ih

theorem Precedes.visible (h : p.Precedes e o) (hv : v ∈ (p.op e).results) : p.Visible o v := by
  obtain ⟨a, ha, hbefore⟩ := h
  exact visible_iff.2 ⟨a, ha, Or.inr ⟨e, hbefore, hv⟩⟩

/-- What makes a visible value comes before. -/
theorem Linked.precedes_of_visible (hp : p.Linked) (hv : p.Visible o v)
    (hz : p.definingOp? v = some z) : p.Precedes z o := by
  obtain ⟨a, ha, hv | ⟨z', hbefore, hv⟩⟩ := visible_iff.1 hv
  · rw [hp.definingOp?_of_arg hv] at hz
    cases hz
  · obtain rfl := Option.some.inj ((hp.definingOp?_of_result hv).1.symm.trans hz)
    exact ⟨a, ha, hbefore⟩

theorem Linked.lt_of_precedes (hp : p.Linked) (h : p.Precedes e o) : e.index < p.ops.size := by
  obtain ⟨a, -, hbefore⟩ := h
  exact (hp.lt_of_isBefore hbefore).1

theorem Linked.lt_of_visible (hp : p.Linked) (h : p.Visible o v) : v.index < p.values.size := by
  obtain ⟨a, -, hv | ⟨z, -, hv⟩⟩ := visible_iff.1 h
  · obtain ⟨i, hi⟩ := List.mem_iff_getElem?.1 hv
    exact ((hp.args _ i v).1 hi).1
  · exact hp.result_lt hv

theorem Linked.isBefore_trans (hp : p.Linked) (hxy : p.isBefore x y = true)
    (hyz : p.isBefore y z = true) : p.isBefore x z = true := by
  obtain ⟨hx, hy⟩ := hp.lt_of_isBefore hxy
  obtain ⟨-, hz⟩ := hp.lt_of_isBefore hyz
  rw [hp.isBefore_iff hx hy] at hxy
  rw [hp.isBefore_iff hy hz] at hyz
  exact (hp.isBefore_iff hx hz).2 ⟨hxy.1.trans hyz.1, Nat.lt_trans hxy.2 hyz.2⟩

theorem parent_eq_of_isBefore (h : p.isBefore z o = true) :
    (p.op z).parent = (p.op o).parent ∧ p.parentOp? z = p.parentOp? o := by
  rw [isBefore, Bool.and_eq_true, decide_eq_true_eq] at h
  exact ⟨h.1, by rw [parentOp?, parentOp?, h.1]⟩

/-! ## In conditionals -/

theorem Under.weaken {enters : OpId → Bool} (h : p.Under enters z x) :
    p.Under (fun _ => true) z x := by
  induction h with
  | refl => exact .refl
  | tail _ h ih => exact ih.tail ⟨rfl, h.2⟩

def isBranch (p : Program) (o : OpId) : Bool := p.kind o = .branch

/-- `v` is an argument of a block around `o`, or a result in what precedes `o`. -/
def Offers (p : Program) (o : OpId) (v : ValueId) : Prop :=
  (∃ a, ReflTransGen p.Outer o a ∧ v ∈ (p.block (p.op a).parent).args) ∨
    ∃ e z, p.Precedes e o ∧ p.Under p.isBranch e z ∧ v ∈ (p.op z).results

theorem offers_of_visible (h : p.Visible o v) : p.Offers o v := by
  obtain ⟨a, ha, hv | ⟨z, hz, hv⟩⟩ := visible_iff.1 h
  · exact Or.inl ⟨a, ha, hv⟩
  · exact Or.inr ⟨z, z, ⟨a, ha, hz⟩, .refl, hv⟩

/-- What is around an operation in `e` is in `e` too, or around `e`. -/
theorem Linked.outer_of_under (hp : p.Linked) (hy : p.Under p.isBranch e y)
    (ha : ReflTransGen p.Outer y a) : (∃ c, p.Under p.isBranch e c ∧ p.isBranch c = true ∧
      p.parentOp? a = some c) ∨ ReflTransGen p.Outer e a := by
  induction hy with
  | refl => exact Or.inr ha
  | @tail c y hc hy ih =>
    have hparent := (hp.mem_nested_iff.1 hy.2).2
    rcases ReflTransGen.cases_head ha with rfl | ⟨b, hb, hba⟩
    · exact Or.inl ⟨c, hc, hy.1, hparent⟩
    · obtain rfl := Option.some.inj (hparent.symm.trans hb.1)
      exact ih hba

/-- What is around something that precedes `o` is around `o`. -/
theorem outer_of_precedes (h : p.isBefore e x = true) (hx : ReflTransGen p.Outer o x)
    (ha : ReflTransGen p.Outer e a) : a = e ∨ ReflTransGen p.Outer o a := by
  rcases ReflTransGen.cases_head ha with rfl | ⟨b, hb, hba⟩
  · exact Or.inl rfl
  · exact Or.inr ((hx.tail ⟨(parent_eq_of_isBefore h).2 ▸ hb.1, hb.2⟩).trans hba)

variable (hp : p.WellFormed)
include hp

/-- The branches of a conditional have no arguments. -/
theorem WellFormed.args_branch (hz : p.isBranch z = true) (ha : p.parentOp? a = some z) :
    (p.block (p.op a).parent).args = [] := by
  have hlt := hp.linked.owner_lt ha
  rw [isBranch, decide_eq_true_eq] at hz
  obtain ⟨-, body, other, hbodies, hbody, hother, -⟩ :
      OpKind.Shape _ _ _ .branch := hz ▸ (hp.laidOut z hlt).2.2
  have hmem := List.mem_map_of_mem (f := p.signature) ((hp.linked.mem_regions z _).2 ha)
  rw [hbodies] at hmem
  have hargs : (p.signature (p.op a).parent).args = [] := by
    rcases List.mem_cons.1 hmem with h | h
    · rw [h, hbody]
    · rw [List.mem_singleton.1 h, hother]
  exact List.map_eq_nil_iff.1 hargs

/-- What is visible in something that precedes `o` is offered to `o`. -/
theorem WellFormed.offers_of_under (he : p.Precedes e o) (hy : p.Under p.isBranch e y)
    (hv : p.Visible y v) : p.Offers o v := by
  obtain ⟨x, hx, hbefore⟩ := he
  obtain ⟨a, ha, hv⟩ := visible_iff.1 hv
  rcases hp.linked.outer_of_under hy ha with ⟨c, hc, hbranch, hparent⟩ | ha
  · -- declared within: no argument, so a result
    rcases hv with hv | ⟨z, hz, hv⟩
    · rw [hp.args_branch hbranch hparent] at hv
      exact absurd hv List.not_mem_nil
    · have hnested : z ∈ p.nested c := hp.linked.mem_nested_iff.2
        ⟨(hp.linked.lt_of_isBefore hz).1, (parent_eq_of_isBefore hz).2.trans hparent⟩
      exact Or.inr ⟨e, z, ⟨x, hx, hbefore⟩, hc.tail ⟨hbranch, hnested⟩, hv⟩
  · -- declared outside, where what precedes `o` stands
    rcases outer_of_precedes hbefore hx ha with rfl | ha
    · rcases hv with hv | ⟨z, hz, hv⟩
      · exact Or.inl ⟨x, hx, (parent_eq_of_isBefore hbefore).1 ▸ hv⟩
      · exact Or.inr ⟨z, z, ⟨x, hx, hp.linked.isBefore_trans hz hbefore⟩, .refl, hv⟩
    · rcases hv with hv | ⟨z, hz, hv⟩
      · exact Or.inl ⟨a, ha, hv⟩
      · exact Or.inr ⟨z, z, ⟨a, ha, hz⟩, .refl, hv⟩

theorem WellFormed.offers_of_yielded (hv : p.Offers o v) (hw : w ∈ p.yieldedBy v) :
    p.Offers o w := by
  obtain ⟨-, z, i, b, y, hz, hkind, -, hb, hy, hw⟩ := mem_yieldedBy_iff.1 hw
  have hw := List.mem_of_getElem? hw
  obtain ⟨hyb, -⟩ := mem_ops_of_terminator? hy
  have hvisible := hp.visible y (hp.linked.size_of_mem_ops hyb) w (List.mem_append_left _ hw)
  rcases hv with ⟨a, -, hv⟩ | ⟨e, z', he, hz', hv⟩
  · rw [hp.linked.definingOp?_of_arg hv] at hz
    cases hz
  · obtain rfl := Option.some.inj ((hp.linked.definingOp?_of_result hv).1.symm.trans hz)
    have hnested : y ∈ p.nested z' := List.mem_flatMap.2 ⟨b, hb, hyb⟩
    have hbranch : p.isBranch z' = true := by simp [isBranch, hkind]
    exact hp.offers_of_under he (hz'.tail ⟨hbranch, hnested⟩) hvisible

theorem WellFormed.offers_of_leads (hv : p.Visible o v)
    (hw : ReflTransGen (Leads p.yieldedBy) v w) : p.Offers o w := by
  induction hw with
  | refl => exact offers_of_visible hv
  | tail _ h ih => exact hp.offers_of_yielded ih h

omit hp

/-! ## What precedes is not around -/

theorem Linked.under_of_outer (hp : p.Linked) (ho : o.index < p.ops.size)
    (ha : ReflTransGen p.Outer o a) : a.index < p.ops.size ∧ p.Under (fun _ => true) a o := by
  induction ha with
  | refl => exact ⟨ho, .refl⟩
  | tail _ h ih =>
    exact ⟨hp.owner_lt h.1, .head ⟨rfl, hp.mem_nested_iff.2 ⟨ih.1, h.1⟩⟩ ih.2⟩

/-- What precedes an operation is not around it. -/
theorem Linked.not_under_of_precedes (hp : p.Linked) (ho : o.index < p.ops.size)
    (he : p.Precedes e o) : ¬ p.Under (fun _ => true) e o := by
  intro heo
  obtain ⟨a, ha, hbefore⟩ := he
  obtain ⟨halt, hao⟩ := hp.under_of_outer ho ha
  obtain ⟨helt, -⟩ := hp.lt_of_isBefore hbefore
  have hne : e ≠ a := by
    rintro rfl
    exact Nat.lt_irrefl _ ((hp.isBefore_iff helt halt).1 hbefore).2
  have hparent := (parent_eq_of_isBefore hbefore).2
  rcases Under.total hp heo hao with h | h
  · exact hne (hp.eq_of_under helt hparent h)
  · exact hne (hp.eq_of_under halt hparent.symm h).symm

/-! ## Elevation -/

/-- What precedes the consumer stands for what lies in it. -/
theorem Linked.elevated_eq (hp : p.Linked) (ho : o.index < p.ops.size) (he : p.Precedes e o)
    (hz : p.Under p.isBranch e z) : p.elevated z o = e := by
  have hnot := hp.not_under_of_precedes ho he
  have helt := hp.lt_of_precedes he
  obtain ⟨x, hx, hbefore⟩ := he
  induction hz with
  | refl =>
    rw [elevated]
    cases hparent : p.parentOp? e with
    | none => rw [ancestors_of_none helt hparent]; rfl
    | some c =>
      -- the operation around `e` is around the consumer too
      have hmem : c ∈ p.ancestors o := by
        rw [(parent_eq_of_isBefore hbefore).2] at hparent
        obtain ⟨hxlt, hxo⟩ := hp.under_of_outer ho hx
        have hxin := hp.mem_nested_iff.2 ⟨hxlt, hparent⟩
        rcases ReflTransGen.cases_tail hxo with rfl | ⟨b, hxb, hb⟩
        · exact (hp.mem_ancestors ho).2 ⟨c, hparent, .refl⟩
        · exact (hp.mem_ancestors ho).2
            ⟨b, (hp.mem_nested_iff.1 hb.2).2, .head ⟨rfl, hxin⟩ hxb⟩
      rw [hp.ancestors_of_parent helt hparent, List.takeWhile_cons_of_neg (by simp [hmem])]
      rfl
  | @tail c z hc hz ih =>
    obtain ⟨hzlt, hparent⟩ := hp.mem_nested_iff.1 hz.2
    have hmem : c ∉ p.ancestors o := by
      intro hmem
      obtain ⟨b, hb, hcb⟩ := (hp.mem_ancestors ho).1 hmem
      exact hnot (((Under.weaken hc).trans hcb).tail ⟨rfl, hp.mem_nested_iff.2 ⟨ho, hb⟩⟩)
    have hbranch : p.kind c = .branch := by simpa [isBranch] using hz.1
    rw [← ih, elevated, elevated, hp.ancestors_of_parent hzlt hparent,
      List.takeWhile_cons_of_pos (by simp [hmem, hbranch]), List.getLast?_cons]
    rfl

end AsyncOrder.Program
