import AsyncOrder.Proofs.Scope.Events
import AsyncOrder.Proofs.Graph.Search
import AsyncOrder.Scope.Producers

/-!
# Where tokens come from

Each producer of a token is the last vertex of one operation, `producerOp?`.  What is visible at
a member of a scope, and what conditionals yield for it, is produced by members that come before:

    o a member, v visible at o, v leads to w, w produced by z
      → z is a member and comes before o                           (producer_before)
-/

namespace AsyncOrder.Program

open Relation

variable {p : Program} {blocks : List BlockId} {call : Option OpId}
variable {o x y z : OpId} {v w : ValueId}

/-! ## Origins -/

theorem Linked.definingOp?_eq_some_iff (hp : p.Linked) (hv : v.index < p.values.size) :
    p.definingOp? v = some z ↔ v ∈ (p.op z).results := by
  rw [definingOp?, List.mem_iff_getElem?]
  constructor
  · intro h
    split at h
    · next op i horigin =>
      obtain rfl := Option.some.inj h
      exact ⟨i, (hp.results op i v).2 ⟨hv, horigin⟩⟩
    · simp at h
  · rintro ⟨i, hi⟩
    rw [((hp.results z i v).1 hi).2]

theorem Linked.argOwner?_of_mem (hp : p.Linked) {b : BlockId} (hv : v ∈ (p.block b).args) :
    ∃ i, p.argOwner? v = some (b, i) ∧ (p.block b).args[i]? = some v := by
  obtain ⟨i, hi⟩ := List.mem_iff_getElem?.1 hv
  refine ⟨i, ?_, hi⟩
  rw [argOwner?, ((hp.args b i v).1 hi).2]

theorem Linked.definingOp?_of_arg (hp : p.Linked) {b : BlockId} (hv : v ∈ (p.block b).args) :
    p.definingOp? v = none := by
  obtain ⟨i, hi⟩ := List.mem_iff_getElem?.1 hv
  rw [definingOp?, ((hp.args b i v).1 hi).2]

theorem Linked.definingOp?_of_result (hp : p.Linked) (hv : v ∈ (p.op z).results) :
    p.definingOp? v = some z ∧ p.carriedOwner? v = none := by
  obtain ⟨i, hi⟩ := List.mem_iff_getElem?.1 hv
  have horigin := ((hp.results z i v).1 hi).2
  rw [definingOp?, carriedOwner?, argOwner?, horigin]
  exact ⟨rfl, rfl⟩

/-- A value is the result of one operation. -/
theorem Linked.eq_of_mem_results (hp : p.Linked) (hx : v ∈ (p.op x).results)
    (hy : v ∈ (p.op y).results) : x = y :=
  Option.some.inj ((hp.definingOp?_of_result hx).1.symm.trans (hp.definingOp?_of_result hy).1)

/-- A value is an argument of one block. -/
theorem Linked.eq_of_mem_args (hp : p.Linked) {b c : BlockId} (hb : v ∈ (p.block b).args)
    (hc : v ∈ (p.block c).args) : b = c := by
  obtain ⟨i, hi, -⟩ := hp.argOwner?_of_mem hb
  obtain ⟨j, hj, -⟩ := hp.argOwner?_of_mem hc
  exact (Prod.mk.inj (Option.some.inj (hi.symm.trans hj))).1

/-- No argument is a result. -/
theorem Linked.not_mem_results_of_arg (hp : p.Linked) {b : BlockId} (hv : v ∈ (p.block b).args) :
    v ∉ (p.op z).results := fun hres =>
  Option.some_ne_none z ((hp.definingOp?_of_result hres).1.symm.trans (hp.definingOp?_of_arg hv))

theorem carriedOwner?_eq_some (h : p.carriedOwner? v = some z) :
    ∃ b i, p.argOwner? v = some (b, i) ∧ (p.block b).parentOp = some z ∧
      (p.kind z).isLoop = true ∧ 1 ≤ i := by
  rw [carriedOwner?] at h
  split at h
  · next b i harg =>
    obtain ⟨hz, hcond⟩ := Option.filter_eq_some_iff.1 h
    rw [Bool.and_eq_true, decide_eq_true_eq] at hcond
    exact ⟨b, i, harg, hz, hcond.1, hcond.2⟩
  · simp at h

/-! ## What is visible at a member -/

section

variable (hp : p.WellFormed) (h : p.IsScope call blocks)
include hp h

theorem IsScope.result_before (ho : o ∈ p.members blocks) (hv : p.Visible o v)
    (hz : p.definingOp? v = some z) (hx : p.Under p.shares z x) :
    x ∈ p.members blocks ∧ (p.members blocks).idxOf x < (p.members blocks).idxOf o := by
  induction hv with
  | @arg o v hv =>
    rw [hp.linked.definingOp?_of_arg hv] at hz
    simp at hz
  | @result o z' v hbefore hv =>
    obtain rfl := Option.some.inj ((hp.linked.definingOp?_of_result hv).1.symm.trans hz)
    exact h.before_mem hp ho hbefore hx
  | @outer o a v hparent hkind _ ih =>
    obtain ⟨ha, hshares, hoa⟩ := h.parent_mem hp ho hparent hkind
    obtain ⟨hx, hlt⟩ := ih ha hz
    have := (idxOf_lt_of_nested hp h ha hshares hoa .refl).2
    exact ⟨hx, by omega⟩
  | beyond hv => exact hv.elim

theorem IsScope.carried_before (ho : o ∈ p.members blocks) (hv : p.Visible o v)
    (hz : p.carriedOwner? v = some z) :
    z ∈ p.members blocks ∧ (p.members blocks).idxOf z < (p.members blocks).idxOf o := by
  induction hv with
  | @arg o v hv =>
    obtain ⟨b, i, harg, howner, hloop, -⟩ := carriedOwner?_eq_some hz
    obtain ⟨j, harg', -⟩ := hp.linked.argOwner?_of_mem hv
    obtain ⟨rfl, -⟩ := Prod.mk.inj (Option.some.inj (harg.symm.trans harg'))
    have hkind : (p.kind z).isHierarchy = false := by
      cases hk : p.kind z <;> simp_all [OpKind.isLoop, OpKind.isHierarchy]
    obtain ⟨hz, hshares, hoz⟩ := h.parent_mem hp ho howner hkind
    exact ⟨hz, (idxOf_lt_of_nested hp h hz hshares hoz .refl).2⟩
  | @result o z' v _ hv =>
    rw [(hp.linked.definingOp?_of_result hv).2] at hz
    simp at hz
  | @outer o a v hparent hkind _ ih =>
    obtain ⟨ha, hshares, hoa⟩ := h.parent_mem hp ho hparent hkind
    obtain ⟨hz, hlt⟩ := ih ha hz
    have := (idxOf_lt_of_nested hp h ha hshares hoa .refl).2
    exact ⟨hz, by omega⟩
  | beyond hv => exact hv.elim

end

/-! ## Producers -/

/-- The operation whose last vertex produces the token itself. -/
def producerOp? (p : Program) (token : ValueId) : Option OpId :=
  match p.carriedOwner? token with
  | some loop => some loop
  | none =>
    (p.definingOp? token).bind fun op =>
      match p.kind op with
      | .loop _ => p.loopYield? op
      | kind => if kind.isAsync then some op else none

theorem directProducer?_eq (c : Context) (token : ValueId) :
    p.directProducer? c token = (p.producerOp? token).bind c.exit? := by
  rw [directProducer?, producerOp?]
  cases p.carriedOwner? token with
  | some loop => rfl
  | none =>
    rw [Option.bind_assoc]
    refine Option.bind_congr fun op _ => ?_
    cases p.kind op <;> rfl

/-- What a conditional gives for a result is what its branches yield in its place. -/
theorem mem_yieldedBy_iff : w ∈ p.yieldedBy v ↔ p.carriedOwner? v = none ∧ ∃ z i b y,
    p.definingOp? v = some z ∧ p.kind z = .branch ∧ (p.op z).results.idxOf? v = some i ∧
      b ∈ (p.op z).regions ∧ p.terminator? b = some y ∧ (p.op y).operands[i]? = some w := by
  rw [yieldedBy]
  constructor
  · intro h
    split at h
    · exact absurd h List.not_mem_nil
    · next hcarried =>
      refine ⟨by simpa using hcarried, ?_⟩
      split at h
      · exact absurd h List.not_mem_nil
      · next z hz =>
        split at h
        · next i hkind hi =>
          obtain ⟨b, hb, hw⟩ := List.mem_filterMap.1 h
          obtain ⟨y, hy, hw⟩ := Option.bind_eq_some_iff.1 hw
          exact ⟨z, i, b, y, hz, hkind, hi, hb, hy, hw⟩
        · exact absurd h List.not_mem_nil
  · rintro ⟨hcarried, z, i, b, y, hz, hkind, hi, hb, hy, hw⟩
    rw [hcarried, hz]
    simp only [Option.isSome_none, Bool.false_eq_true, if_false, hkind, hi]
    exact List.mem_filterMap.2 ⟨b, hb, by rw [hy]; exact hw⟩

theorem shares_of_branch (h : p.kind z = .branch) : p.shares z = true := by
  simp [shares, h]

theorem shares_of_isLoop (h : (p.kind z).isLoop = true) : p.shares z = true := by
  simp [shares, h]

variable (hp : p.WellFormed) (h : p.IsScope call blocks)
include hp h

/-- What a conditional yields is visible at a member that comes before. -/
theorem IsScope.yielded_before (ho : o ∈ p.members blocks) (hv : p.Visible o v)
    (hw : w ∈ p.yieldedBy v) : ∃ y ∈ p.members blocks, p.Visible y w ∧
      (p.members blocks).idxOf y < (p.members blocks).idxOf o := by
  obtain ⟨-, z, i, b, y, hz, hkind, -, hb, hy, hw⟩ := mem_yieldedBy_iff.1 hw
  have hw := List.mem_of_getElem? hw
  obtain ⟨hyb, -⟩ := WellFormed.mem_ops_of_terminator? hy
  have hnested : y ∈ p.nested z := List.mem_flatMap.2 ⟨b, hb, hyb⟩
  have hunder : p.Under p.shares z y := .single ⟨shares_of_branch hkind, hnested⟩
  obtain ⟨hmem, hlt⟩ := h.result_before hp ho hv hz hunder
  refine ⟨y, hmem, ?_, hlt⟩
  exact hp.visible y (hp.linked.size_of_mem_ops hyb) w (List.mem_append_left _ hw)

theorem IsScope.producerOp_before (ho : o ∈ p.members blocks) (hv : p.Visible o v)
    (hz : p.producerOp? v = some z) : z ∈ p.members blocks ∧ p.happens z = true ∧
      (p.members blocks).idxOf z < (p.members blocks).idxOf o := by
  rw [producerOp?] at hz
  split at hz
  · next loop hloop =>
    obtain rfl := Option.some.inj hz
    obtain ⟨_, _, -, -, hkind, -⟩ := carriedOwner?_eq_some hloop
    obtain ⟨hmem, hlt⟩ := h.carried_before hp ho hv hloop
    exact ⟨hmem, by simp [happens, hkind], hlt⟩
  · obtain ⟨a, ha, hz⟩ := Option.bind_eq_some_iff.1 hz
    have hbefore := fun {x} => h.result_before hp ho hv ha (x := x)
    have halt := lt_of_mem_members hp.linked (hbefore .refl).1
    split at hz
    · next kind hkind =>
      have hloop : (p.kind a).isLoop = true := by rw [hkind]; rfl
      obtain ⟨y, hy, hnested, hyield⟩ := hp.loopYield?_eq_some halt hloop
      obtain rfl := Option.some.inj (hy.symm.trans hz)
      have hin : p.inLoop y = true := by
        rw [inLoop, (hp.linked.mem_nested_iff.1 hnested).2, Option.map_some, hloop]
        rfl
      obtain ⟨hmem, hlt⟩ := hbefore (.single ⟨shares_of_isLoop hloop, hnested⟩)
      exact ⟨hmem, by simp [happens, hyield, hin], hlt⟩
    · split at hz
      · next hasync =>
        obtain rfl := Option.some.inj hz
        exact ⟨(hbefore .refl).1, by simp [happens, hasync], (hbefore .refl).2⟩
      · simp at hz

/-- The producers of what is visible at a member are members that come before. -/
theorem IsScope.producer_before (ho : o ∈ p.members blocks) (hv : p.Visible o v)
    (hvw : ReflTransGen (Leads p.yieldedBy) v w) (hz : p.producerOp? w = some z) :
    z ∈ p.members blocks ∧ p.happens z = true ∧
      (p.members blocks).idxOf z < (p.members blocks).idxOf o := by
  induction hvw using ReflTransGen.head_induction_on generalizing o with
  | refl => exact h.producerOp_before hp ho hv hz
  | head hstep _ ih =>
    obtain ⟨y, hy, hvy, hlt⟩ := h.yielded_before hp ho hv hstep
    obtain ⟨hmem, hhappens, hlt'⟩ := ih hy hvy
    exact ⟨hmem, hhappens, by omega⟩

end AsyncOrder.Program
