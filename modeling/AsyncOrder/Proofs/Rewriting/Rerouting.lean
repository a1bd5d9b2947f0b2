import AsyncOrder.Proofs.Graph.Ways
import AsyncOrder.Proofs.Pipeline.Scoped
import AsyncOrder.Proofs.Rewriting.Awaiting

/-!
# Ways through what is cleaned up

An operation is bypassed if who waited on its token waits on what it waited on, and conditionals
yield that in place of the token.  What is left then waits on one another as it did, by way of
others or not (`Bypasses.contracts`).  A join that is collapsed is bypassed:

    q is p at some stage → p.Keeps last q q.collapseJoins.1, if those in last live  (collapseJoins)
    a, b live in q.collapseJoins.1 → (b waits on a there ↔ in q)          (transGen_collapseJoins)
-/

namespace AsyncOrder.Program

open Relation

variable {p q r : Program} {last : OpId → Bool} {good : ValueId → Prop} {o z d a b : OpId}
variable {v w token : ValueId}

/-! ## Ways -/

/-- A control token that is not the result of a join, unless the join lives at last. -/
def Holds (p : Program) (last : OpId → Bool) (v : ValueId) : Prop :=
  p.isControlToken v = true ∧ ∀ z, p.definingOp? v = some z → p.kind z = .join → last z = true

/-- Ways along what live operations of `q` wait on, held by what holds in `p`; the gates are the
calls that wait on control tokens. -/
def Ways (p : Program) (last : OpId → Bool) (q : Program) : OpId → Bool → OpId → Prop :=
  Way (q.Steps fun _ => True) (q.Steps (p.Holds last)) fun b => waitsOnControl (p.kind b) = true

/-- What a conditional yields for a value makes it hold. -/
theorem holds_of_yieldedBy (h : p.Prunes q) (hw : w ∈ q.yieldedBy v) : p.Holds last v := by
  obtain ⟨-, z, -, -, -, hz, hkind, -⟩ := mem_yieldedBy_iff.1 hw
  rw [h.definingOp?] at hz
  rw [h.kind] at hkind
  refine ⟨?_, fun z' hz' hjoin => ?_⟩
  · rw [isControlToken, hz, Option.map_some, hkind, Bool.or_true]
  · obtain rfl := Option.some.inj (hz.symm.trans hz')
    rw [hkind] at hjoin
    cases hjoin

theorem MadeBy.of_yields (hw : w ∈ q.yieldedBy v) (hz : q.MadeBy w z) : q.MadeBy v z :=
  let ⟨x, hwx, hx⟩ := hz
  ⟨x, .head hw hwx, hx⟩

/-- What no conditional yields another value for has one producer. -/
theorem madeBy_iff_eq (hproducer : q.producerOp? v = some d) (hnil : q.yieldedBy v = []) :
    q.MadeBy v z ↔ z = d := by
  constructor
  · rintro ⟨w, hvw, hw⟩
    rcases ReflTransGen.cases_head hvw with rfl | ⟨x, hx, -⟩
    · exact Option.some.inj (hw.symm.trans hproducer)
    · rw [Leads, hnil] at hx
      exact absurd hx List.not_mem_nil
  · rintro rfl
    exact ⟨v, .refl, hproducer⟩

theorem producerOp?_cases (h : q.producerOp? v = some z) : (q.kind z).isLoop = true ∨
    q.definingOp? v = some z ∧ (q.kind z).isAsync = true ∨
      ∃ y, (q.kind y).isLoop = true ∧ q.loopYield? y = some z := by
  rw [producerOp?] at h
  split at h
  · next loop hloop =>
    obtain rfl := Option.some.inj h
    obtain ⟨-, -, -, -, hkind, -⟩ := carriedOwner?_eq_some hloop
    exact Or.inl hkind
  · obtain ⟨y, hdefines, h⟩ := Option.bind_eq_some_iff.1 h
    split at h
    · next hkind => exact Or.inr (Or.inr ⟨y, by rw [hkind]; rfl, h⟩)
    · split at h
      · next hasync =>
        obtain rfl := Option.some.inj h
        exact Or.inr (Or.inl ⟨hdefines, hasync⟩)
      · cases h

/-- An asynchronous operation produces its results itself. -/
theorem Prunes.producerOp?_result (h : p.Prunes q) (hp : p.Linked) (hv : v ∈ (p.op z).results)
    (hkind : (p.kind z).isAsync = true) : q.producerOp? v = some z ∧ q.yieldedBy v = [] := by
  obtain ⟨hdefines, hcarried⟩ := hp.definingOp?_of_result hv
  rw [← h.kind] at hkind
  rw [← h.definingOp?] at hdefines
  rw [← h.carriedOwner?] at hcarried
  constructor
  · rw [producerOp?, hcarried, hdefines]
    cases hk : q.kind z <;> simp_all [OpKind.isAsync]
  · refine List.eq_nil_iff_forall_not_mem.2 fun w hw => ?_
    obtain ⟨-, y, -, -, -, hy, hbranch, -⟩ := mem_yieldedBy_iff.1 hw
    obtain rfl := Option.some.inj (hy.symm.trans hdefines)
    rw [hbranch] at hkind
    cases hkind

/-! ## Values in the same places -/

section

variable (h : p.Scoped q) (h' : p.Scoped r) (hp : p.WellFormed)
variable (hlive : ∀ o, r.isLive o = true → q.isLive o = true)
include h h' hp hlive

theorem producerOp?_eq_of_inView (hv : r.InView o v) : r.producerOp? v = q.producerOp? v := by
  rw [h'.prunes.producerOp?_eq hp fun _ => h'.prunes.isLive_of_inView hp.linked hv,
    h.prunes.producerOp?_eq hp fun z hz => ?_]
  rw [h.prunes.definingOp?, ← h'.prunes.definingOp?] at hz
  exact hlive z (h'.prunes.isLive_of_inView hp.linked hv hz)

/-- Where operations use other values in the same places, conditionals yield the other values. -/
theorem yieldedBy_eq {swap : ValueId → ValueId}
    (hoperands : ∀ o, r.isLive o = true → (p.kind o).isHierarchy = false →
      (r.op o).operands = (q.op o).operands.map swap) (hv : r.InView o v) :
    r.yieldedBy v = (q.yieldedBy v).map swap := by
  rw [yieldedBy, yieldedBy, h'.prunes.carriedOwner?, h.prunes.carriedOwner?]
  split
  · rfl
  · rw [h.prunes.definingOp?, ← h'.prunes.definingOp?]
    cases hz : r.definingOp? v with
    | none => rfl
    | some z =>
      have hzlive := h'.prunes.isLive_of_inView hp.linked hv hz
      simp only [h'.prunes.kind, h.prunes.kind, h'.prunes.results, h.prunes.results,
        h'.prunes.regions, h.prunes.regions]
      split
      · rw [List.map_filterMap]
        refine List.filterMap_congr fun b hb => ?_
        obtain ⟨y, hy, hyp, -, hylive⟩ := h'.prunes.terminator?_eq hp hzlive hb
        obtain ⟨y', hy', hyp', -⟩ := h.prunes.terminator?_eq hp (hlive z hzlive) hb
        obtain rfl := Option.some.inj (hyp.symm.trans hyp')
        have hkind : (p.kind y).isHierarchy = false := by
          have := (WellFormed.mem_ops_of_terminator? hyp).2
          cases hk : p.kind y <;> simp_all [OpKind.isTerminator, OpKind.isHierarchy]
        rw [hy, hy', Option.bind_some, Option.bind_some, hoperands y hylive hkind,
          List.getElem?_map]
      · rfl

variable (hoperands : ∀ o, r.isLive o = true → (p.kind o).isHierarchy = false →
  (r.op o).operands = (q.op o).operands)
include hoperands

theorem yieldedBy_congr (hv : r.InView o v) : r.yieldedBy v = q.yieldedBy v := by
  rw [yieldedBy_eq h h' hp hlive (fun o ho hkind => ?_) hv, List.map_id]
  rw [List.map_id, hoperands o ho hkind]

/-- With the same values in the same places the same operations produce them. -/
theorem madeBy_congr (ho : r.isLive o = true) (hv : r.InView o v) :
    r.MadeBy v z ↔ q.MadeBy v z := by
  constructor
  · rintro ⟨w, hvw, hw⟩
    induction hvw using ReflTransGen.head_induction_on generalizing o with
    | refl => exact ⟨w, .refl, producerOp?_eq_of_inView h h' hp hlive hv ▸ hw⟩
    | head hstep _ ih =>
      obtain ⟨y, hylive, hview⟩ := h'.yielded_inView hp hv hstep
      refine (ih hylive hview).of_yields ?_
      rwa [← yieldedBy_congr h h' hp hlive hoperands hv]
  · rintro ⟨w, hvw, hw⟩
    induction hvw using ReflTransGen.head_induction_on generalizing o with
    | refl => exact ⟨w, .refl, (producerOp?_eq_of_inView h h' hp hlive hv).trans hw⟩
    | head hstep _ ih =>
      rw [Leads, ← yieldedBy_congr h h' hp hlive hoperands hv] at hstep
      obtain ⟨y, hylive, hview⟩ := h'.yielded_inView hp hv hstep
      exact (ih hylive hview).of_yields hstep

end

/-! ## The same steps -/

theorem mem_tokenList_iff : v ∈ q.tokenList o ↔ (q.kind o).isAsync = true ∧ v ∈ q.deps o ∨
    (q.valueType v).isToken = true ∧ ((q.kind o).isLoop = true ∧ v ∈ (q.op o).operands.drop 3 ∨
      q.kind o = .yield ∧ v ∈ (q.op o).operands) := by
  rw [tokenList]
  cases q.kind o <;> simp [OpKind.isAsync, OpKind.isLoop, and_comm]

theorem isHierarchy_of_isLoop {kind : OpKind} (h : kind.isLoop = true) :
    kind.isHierarchy = false := by
  cases kind <;> simp_all [OpKind.isLoop, OpKind.isHierarchy]

section

variable (h : p.Scoped q) (h' : p.Scoped r) (hp : p.WellFormed)
variable (hlive : ∀ o, r.isLive o = true → q.isLive o = true)
variable (hoperands : ∀ o, r.isLive o = true → (p.kind o).isHierarchy = false →
  (r.op o).operands = (q.op o).operands)
include h h' hp hlive hoperands

/-- What waits on the same tokens awaits the same operations. -/
theorem steps_congr (hb : r.isLive b = true) (hdeps : ∀ v, v ∈ r.deps b ↔ v ∈ q.deps b) :
    r.Steps good a b ↔ q.Steps good a b := by
  have htokens : ∀ v, v ∈ r.tokenList b ↔ v ∈ q.tokenList b := by
    intro v
    rw [mem_tokenList_iff, mem_tokenList_iff, h'.prunes.kind, h.prunes.kind, h'.prunes.valueType,
      h.prunes.valueType, hdeps]
    refine or_congr_right (and_congr_right fun _ => or_congr ?_ ?_)
    · exact and_congr_right fun hloop => by rw [hoperands b hb (isHierarchy_of_isLoop hloop)]
    · exact and_congr_right fun hyield => by rw [hoperands b hb (by rw [hyield]; rfl)]
  refine and_congr (iff_of_true hb (hlive b hb)) (exists_congr fun v => ?_)
  rw [htokens]
  refine and_congr_right fun hv => and_congr_right fun _ => ?_
  exact madeBy_congr h h' hp hlive hoperands hb (h'.used_inView hb ((htokens v).2 hv))

end

/-- Where the same lives and waits on the same tokens, the steps are the same. -/
theorem steps_eq (h : p.Scoped q) (h' : p.Scoped r) (hp : p.WellFormed)
    (hlive : ∀ o, r.isLive o = q.isLive o)
    (hoperands : ∀ o, r.isLive o = true → (p.kind o).isHierarchy = false →
      (r.op o).operands = (q.op o).operands)
    (hdeps : ∀ o v, r.isLive o = true → (v ∈ r.deps o ↔ v ∈ q.deps o)) :
    r.Steps good = q.Steps good := by
  funext a b
  by_cases hb : r.isLive b = true
  · exact propext (steps_congr h h' hp (fun o ho => hlive o ▸ ho) hoperands hb fun v => hdeps b v hb)
  · exact propext (iff_of_false (fun hab => hb hab.1) fun hab => hb ((hlive b).trans hab.1))

/-! ## Stages -/

/-- `q` is scoped for `p`, and what lives in it waits on tokens only. -/
structure Staged (p q : Program) : Prop where
  program : p.Scoped q
  tokens : ∀ o, q.isLive o = true → ∀ v ∈ q.deps o, p.valueType v = .token

/-- What lives in `r` lived in `q`, and the ways between what lives in `r` are the same in both. -/
structure Keeps (p : Program) (last : OpId → Bool) (q r : Program) : Prop where
  isLive : ∀ o, r.isLive o = true → q.isLive o = true
  ways_iff : ∀ a b isHeld, r.isLive a = true → r.isLive b = true →
    (p.Ways last r a isHeld b ↔ p.Ways last q a isHeld b)

theorem Keeps.refl (q : Program) : p.Keeps last q q := ⟨fun _ h => h, fun _ _ _ _ _ => Iff.rfl⟩

theorem Keeps.trans {q' : Program} (h : p.Keeps last q r) (h' : p.Keeps last r q') :
    p.Keeps last q q' where
  isLive o ho := h.isLive o (h'.isLive o ho)
  ways_iff a b isHeld ha hb := (h'.ways_iff a b isHeld ha hb).trans
    (h.ways_iff a b isHeld (h'.isLive a ha) (h'.isLive b hb))

theorem Keeps.of_steps (hlive : ∀ o, r.isLive o = q.isLive o)
    (hsteps : ∀ good, r.Steps good = q.Steps good) : p.Keeps last q r :=
  ⟨fun o ho => hlive o ▸ ho, fun a b isHeld _ _ => by rw [Ways, Ways, hsteps, hsteps]⟩

/-! ## Repeated tokens -/

theorem strip_dedupDeps : q.dedupDeps.1.strip false = q.strip false := by
  rw [dedupDeps, changeEach_eq]
  generalize q.walk = ops
  induction ops generalizing q with
  | nil => rfl
  | cons o ops ih => exact ih.trans ops_strip_setDeps

theorem mem_deps_dedupDeps : v ∈ q.dedupDeps.1.deps o ↔ v ∈ q.deps o := by
  rw [dedupDeps, changeEach_eq]
  generalize q.walk = ops
  induction ops generalizing q with
  | nil => rfl
  | cons z ops ih =>
    rw [List.foldl_cons, ih, dedupDepsOf, deps_setDeps]
    split
    · next ho => rw [List.mem_eraseDups, ho.1]
    · rfl

theorem Staged.dedupDeps (hp : p.WellFormed) (h : p.Staged q) :
    p.Staged q.dedupDeps.1 ∧ p.Keeps last q q.dedupDeps.1 := by
  have hscoped := h.program.dedupDeps hp
  have hrewires := rewires_of_strip (strip_dedupDeps (q := q))
  refine ⟨⟨hscoped, fun o ho v hv => ?_⟩, .of_steps hrewires.isLive fun good => ?_⟩
  · exact h.tokens o (hrewires.isLive o ▸ ho) v (mem_deps_dedupDeps.1 hv)
  · exact steps_eq h.program hscoped hp hrewires.isLive
      (fun o _ _ => operands_eq_of_strip strip_dedupDeps o) fun _ _ _ => mem_deps_dedupDeps

/-! ## Unused parameters -/

/-- `r` differs from `q` in no more than parameters and what calls pass to them. -/
structure Passes (q r : Program) : Prop where
  kind : ∀ z, r.kind z = q.kind z
  isLive : ∀ z, r.isLive z = q.isLive z
  deps : ∀ z, r.deps z = q.deps z
  operands : ∀ z, (q.kind z).isHierarchy = false → (r.op z).operands = (q.op z).operands

theorem Passes.refl (q : Program) : q.Passes q := ⟨fun _ => rfl, fun _ => rfl, fun _ => rfl, fun _ _ => rfl⟩

theorem Passes.trans {r' : Program} (h : q.Passes r) (h' : r.Passes r') : q.Passes r' where
  kind z := (h'.kind z).trans (h.kind z)
  isLive z := (h'.isLive z).trans (h.isLive z)
  deps z := (h'.deps z).trans (h.deps z)
  operands z hz := (h'.operands z (h.kind z ▸ hz)).trans (h.operands z hz)

theorem passes_removeParam (i : Nat) : q.Passes (q.removeParam o i) := by
  cases hbody : q.body? o with
  | none =>
    rw [removeParam, hbody]
    split
    · next h => cases h
    · exact .refl q
  | some b =>
    cases hkind : q.kind o with
    | hierarchy level ids =>
      refine ⟨fun z => kind_removeParam hkind hbody, fun z => isLive_removeParam hkind hbody,
        fun z => ?_, fun z hz => ?_⟩
      · rw [deps, op_removeParam hkind hbody]
        split <;> rfl
      · rw [op_removeParam hkind hbody, if_neg]
        rintro ⟨rfl, -⟩
        rw [hkind] at hz
        cases hz
    | _ =>
      rw [removeParam, hkind]
      exact .refl q

theorem passes_removeUnusedParamsOf : q.Passes (q.removeUnusedParamsOf o).1 := by
  rw [removeUnusedParamsOf_eq]
  generalize (q.hierarchyPairs o).zipIdx.reverse = l
  induction l generalizing q with
  | nil => exact .refl q
  | cons e l ih =>
    rw [List.foldl_cons]
    refine Passes.trans ?_ ih
    split
    · exact .refl q
    · exact passes_removeParam e.2

theorem passes_removeUnusedParams : q.Passes q.removeUnusedParams.1 := by
  rw [Program.removeUnusedParams, changeEach_eq]
  generalize q.walk.reverse = ops
  induction ops generalizing q with
  | nil => exact .refl q
  | cons o ops ih => exact passes_removeUnusedParamsOf.trans ih

theorem Scoped.steps_removeUnusedParams (hp : p.WellFormed) (h : p.Scoped q) :
    q.removeUnusedParams.1.Steps good = q.Steps good :=
  have hpasses := passes_removeUnusedParams
  steps_eq h (h.removeUnusedParams hp) hp hpasses.isLive
    (fun z _ hz => hpasses.operands z (h.prunes.kind z ▸ hz)) fun z v _ => by rw [hpasses.deps z]

/-! ## An operation is bypassed -/

/-- `r` is `q` without `d`: who waited on the token of `d` waits on what `d` waited on, and
conditionals yield what `d` waited on in place of the token. -/
structure Bypasses (q r : Program) (d : OpId) (token : ValueId) : Prop where
  lives : q.isLive d = true
  gone : r.isLive d = false
  isLive : ∀ o, r.isLive o = true → q.isLive o = true
  stays : ∀ a w, a ≠ d → q.isLive a = true → q.producerOp? w = some a → r.isLive a = true
  producer : q.producerOp? token = some d
  yields_nil : q.yieldedBy token = []
  tokens : ∀ o v, r.isLive o = true → (v ∈ r.tokenList o ↔
    v ∈ q.tokenList o ∧ v ≠ token ∨ token ∈ q.tokenList o ∧ v ∈ q.tokenList d)
  yields : ∀ o v w, r.isLive o = true → r.InView o v → (w ∈ r.yieldedBy v ↔
    w ∈ q.yieldedBy v ∧ w ≠ token ∨ token ∈ q.yieldedBy v ∧ w ∈ q.tokenList d)

namespace Bypasses

variable (hb : q.Bypasses r d token) (h : p.Scoped q) (h' : p.Scoped r) (hp : p.WellFormed)
variable (hself : ¬ q.Awaits d d)
include hb

theorem madeBy_token : q.MadeBy token z ↔ z = d := madeBy_iff_eq hb.producer hb.yields_nil

include hself in
theorem token_not_mem : token ∉ q.tokenList d := fun hmem =>
  hself ⟨token, hmem, trivial, hb.madeBy_token.2 rfl⟩

include h h' hp

/-- A value in view that `d` produces is yielded by a conditional. -/
theorem exists_yielded (ho : r.isLive o = true) (hv : r.InView o v) (hz : q.MadeBy v d) :
    ∃ w, w ∈ q.yieldedBy v := by
  obtain ⟨w, hvw, hw⟩ := hz
  rcases ReflTransGen.cases_head hvw with rfl | ⟨x, hx, -⟩
  · have hrw := (producerOp?_eq_of_inView h h' hp hb.isLive hv).trans hw
    have hlive := h'.isLive_of_producerOp hp ho hv hrw
    rw [hb.gone] at hlive
    cases hlive
  · exact ⟨x, hx⟩

/-- What is produced by another operation still is. -/
theorem madeBy (ho : r.isLive o = true) (hv : r.InView o v) (hne : v ≠ token) (ha : a ≠ d)
    (hz : q.MadeBy v a) : r.MadeBy v a := by
  obtain ⟨w, hvw, hw⟩ := hz
  induction hvw using ReflTransGen.head_induction_on generalizing o with
  | refl => exact ⟨w, .refl, (producerOp?_eq_of_inView h h' hp hb.isLive hv).trans hw⟩
  | @head v x hstep hxw ih =>
    have hx : x ≠ token := by
      rintro rfl
      exact ha (hb.madeBy_token.1 ⟨w, hxw, hw⟩)
    have hstep' := (hb.yields o v x ho hv).2 (Or.inl ⟨hstep, hx⟩)
    obtain ⟨y, hylive, hview⟩ := h'.yielded_inView hp hv hstep'
    exact (ih hylive hview hx).of_yields hstep'

include hself

/-- What `d` was behind of is produced by what `d` waited on. -/
theorem madeBy_behind (ho : r.isLive o = true) (hv : r.InView o v) (hne : v ≠ token) (ha : a ≠ d)
    (hz : q.MadeBy v d) (had : q.Awaits d a) : r.MadeBy v a := by
  obtain ⟨w, hvw, hw⟩ := hz
  induction hvw using ReflTransGen.head_induction_on generalizing o with
  | refl =>
    have hrw := (producerOp?_eq_of_inView h h' hp hb.isLive hv).trans hw
    have hlive := h'.isLive_of_producerOp hp ho hv hrw
    rw [hb.gone] at hlive
    cases hlive
  | @head v x hstep hxw ih =>
    by_cases hx : x = token
    · subst hx
      obtain ⟨y, hy, -, hya⟩ := had
      have hstep' := (hb.yields o v y ho hv).2 (Or.inr ⟨hstep, hy⟩)
      obtain ⟨c, hclive, hview⟩ := h'.yielded_inView hp hv hstep'
      have hne' : y ≠ x := fun heq => hb.token_not_mem hself (heq ▸ hy)
      exact (hb.madeBy h h' hp hclive hview hne' ha hya).of_yields hstep'
    · have hstep' := (hb.yields o v x ho hv).2 (Or.inl ⟨hstep, hx⟩)
      obtain ⟨y, hylive, hview⟩ := h'.yielded_inView hp hv hstep'
      exact (ih hylive hview hx).of_yields hstep'

theorem madeBy_iff (ho : r.isLive o = true) (hv : r.InView o v) (hne : v ≠ token) :
    r.MadeBy v a ↔ a ≠ d ∧ (q.MadeBy v a ∨ q.MadeBy v d ∧ q.Awaits d a) := by
  refine ⟨fun hz => ?_, fun ⟨ha, hz⟩ => hz.elim (hb.madeBy h h' hp ho hv hne ha)
    fun ⟨hz, had⟩ => hb.madeBy_behind h h' hp hself ho hv hne ha hz had⟩
  have ha : a ≠ d := by
    rintro rfl
    have hlive := h'.isLive_of_madeBy hp ho hv hz
    rw [hb.gone] at hlive
    cases hlive
  refine ⟨ha, ?_⟩
  obtain ⟨w, hvw, hw⟩ := hz
  induction hvw using ReflTransGen.head_induction_on generalizing o with
  | refl => exact Or.inl ⟨w, .refl, producerOp?_eq_of_inView h h' hp hb.isLive hv ▸ hw⟩
  | @head v x hstep _ ih =>
    obtain ⟨y, hylive, hview⟩ := h'.yielded_inView hp hv hstep
    rcases (hb.yields o v x ho hv).1 hstep with ⟨hx, hxne⟩ | ⟨htoken, hx⟩
    · exact (ih hylive hview hxne).imp (·.of_yields hx) (And.imp_left (·.of_yields hx))
    · have hxne : x ≠ token := fun heq => hb.token_not_mem hself (heq ▸ hx)
      rcases ih hylive hview hxne with hxa | ⟨hxd, -⟩
      · exact Or.inr ⟨(hb.madeBy_token.2 rfl).of_yields htoken, x, hx, trivial, hxa⟩
      · exact absurd ⟨x, hx, trivial, hxd⟩ hself

theorem awaitsBy_iff (hgood : good token → ∀ v, good v) (hyield : ∀ v w, w ∈ q.yieldedBy v → good v)
    (ho : r.isLive o = true) : r.AwaitsBy good o a ↔ a ≠ d ∧ (q.AwaitsBy good o a ∨
      q.AwaitsBy good d a ∧ q.Awaits o d ∨ q.Awaits d a ∧ q.AwaitsBy good o d) := by
  have hiff : ∀ v ∈ r.tokenList o, v ≠ token →
      (r.MadeBy v a ↔ a ≠ d ∧ (q.MadeBy v a ∨ q.MadeBy v d ∧ q.Awaits d a)) := fun v hv =>
    hb.madeBy_iff h h' hp hself ho (h'.used_inView ho hv)
  constructor
  · rintro ⟨v, hv, hgoodv, hz⟩
    rcases (hb.tokens o v ho).1 hv with ⟨hvq, hne⟩ | ⟨htoken, hvd⟩
    · obtain ⟨ha, hz⟩ := (hiff v hv hne).1 hz
      refine ⟨ha, hz.imp (fun hz => ⟨v, hvq, hgoodv, hz⟩) fun ⟨hz, had⟩ => Or.inr ?_⟩
      exact ⟨had, v, hvq, hgoodv, hz⟩
    · have hne : v ≠ token := fun heq => hb.token_not_mem hself (heq ▸ hvd)
      obtain ⟨ha, hz⟩ := (hiff v hv hne).1 hz
      refine ⟨ha, Or.inr (Or.inl ⟨?_, token, htoken, trivial, hb.madeBy_token.2 rfl⟩)⟩
      rcases hz with hz | ⟨hz, -⟩
      · exact ⟨v, hvd, hgoodv, hz⟩
      · exact absurd ⟨v, hvd, trivial, hz⟩ hself
  · -- one of the two tokens that lead by way of `d` is good
    have hbehind : ∀ y ∈ q.tokenList d, q.MadeBy y a → ∀ v ∈ q.tokenList o, q.MadeBy v d →
        good y ∨ good v → a ≠ d → r.AwaitsBy good o a := by
      intro y hy hya v hv hz hgood' ha
      by_cases hne : v = token
      · subst hne
        have hy' := (hb.tokens o y ho).2 (Or.inr ⟨hv, hy⟩)
        have hne' : y ≠ v := fun heq => hb.token_not_mem hself (heq ▸ hy)
        exact ⟨y, hy', hgood'.elim id fun hv => hgood hv y,
          (hiff y hy' hne').2 ⟨ha, Or.inl hya⟩⟩
      · have hv' := (hb.tokens o v ho).2 (Or.inl ⟨hv, hne⟩)
        obtain ⟨w, hw⟩ := hb.exists_yielded h h' hp ho (h'.used_inView ho hv') hz
        exact ⟨v, hv', hyield v w hw, (hiff v hv' hne).2 ⟨ha, Or.inr ⟨hz, y, hy, trivial, hya⟩⟩⟩
    rintro ⟨ha, ⟨v, hv, hgoodv, hz⟩ | ⟨⟨y, hy, hgoody, hya⟩, v, hv, -, hz⟩ |
      ⟨⟨y, hy, -, hya⟩, v, hv, hgoodv, hz⟩⟩
    · have hne : v ≠ token := fun heq => ha (hb.madeBy_token.1 (heq ▸ hz))
      have hv' := (hb.tokens o v ho).2 (Or.inl ⟨hv, hne⟩)
      exact ⟨v, hv', hgoodv, (hiff v hv' hne).2 ⟨ha, Or.inl hz⟩⟩
    · exact hbehind y hy hya v hv hz (Or.inl hgoody) ha
    · exact hbehind y hy hya v hv hz (Or.inr hgoodv) ha

omit h' hself in
/-- What is awaited is `d`, or stays. -/
theorem isLive_of_steps (hne : a ≠ d) (hab : q.Steps good a b) : r.isLive a = true := by
  obtain ⟨hlive, hz⟩ := hab
  have halive := h.isLive_of_awaits hp hlive hz.awaits
  obtain ⟨-, -, -, w, -, hw⟩ := hz
  exact hb.stays a w hne halive hw

theorem steps_iff (hgood : good token → ∀ v, good v) (hyield : ∀ v w, w ∈ q.yieldedBy v → good v)
    (ho : r.isLive b = true) : r.Steps good a b ↔ r.isLive a = true ∧ q.Steps good a b ∨
      q.Steps good a d ∧ q.Steps (fun _ => True) d b ∨
        q.Steps (fun _ => True) a d ∧ q.Steps good d b := by
  have hiff := hb.awaitsBy_iff (a := a) h h' hp hself hgood hyield ho
  have hq := hb.isLive b ho
  constructor
  · rintro ⟨-, hab⟩
    obtain ⟨ha, hab | ⟨had, hdb⟩ | ⟨had, hdb⟩⟩ := hiff.1 hab
    · exact Or.inl ⟨hb.isLive_of_steps h hp ha ⟨hq, hab⟩, hq, hab⟩
    · exact Or.inr (Or.inl ⟨⟨hb.lives, had⟩, hq, hdb⟩)
    · exact Or.inr (Or.inr ⟨⟨hb.lives, had⟩, hq, hdb⟩)
  · rintro (⟨ha, -, hab⟩ | ⟨⟨-, had⟩, -, hdb⟩ | ⟨⟨-, had⟩, -, hdb⟩)
    · have hne : a ≠ d := fun heq => Bool.eq_false_iff.1 hb.gone (heq ▸ ha)
      exact ⟨ho, hiff.2 ⟨hne, Or.inl hab⟩⟩
    · have hne : a ≠ d := fun heq => hself (heq ▸ had.awaits)
      exact ⟨ho, hiff.2 ⟨hne, Or.inr (Or.inl ⟨had, hdb⟩)⟩⟩
    · have hne : a ≠ d := fun heq => hself (heq ▸ had)
      exact ⟨ho, hiff.2 ⟨hne, Or.inr (Or.inr ⟨had, hdb⟩)⟩⟩

theorem contracts (hhold : ¬ p.Holds last token) (hkind : waitsOnControl (p.kind d) = false) :
    Contracts (fun o => r.isLive o = true) (fun o => waitsOnControl (p.kind o) = true) d
      (q.Steps fun _ => True) (q.Steps (p.Holds last)) (r.Steps fun _ => True)
      (r.Steps (p.Holds last)) where
  gone hd := Bool.eq_false_iff.1 hb.gone hd
  no_gate hd := Bool.eq_false_iff.1 hkind hd
  held_step _ _ := Steps.weaken
  before a b _ hab := by
    by_cases ha : a = d
    · exact Or.inr ha
    · exact Or.inl (hb.isLive_of_steps h hp ha hab)
  before_gone a had := hb.isLive_of_steps h hp (fun heq => hself (heq ▸ had.2)) had
  step_iff a b hblive := by
    have hiff := hb.steps_iff (a := a) h h' hp hself (fun _ _ => trivial) (fun _ _ _ => trivial)
      hblive
    rwa [or_self] at hiff
  held_iff a b hblive := hb.steps_iff h h' hp hself (fun hno => absurd hno hhold)
    (fun v w hw => holds_of_yieldedBy h.prunes hw) hblive

end Bypasses

/-! ## Joins of one token -/

theorem mem_map_swap {l : List ValueId} {old new : ValueId} :
    v ∈ l.map (fun v => if v = old then new else v) ↔ v ∈ l ∧ v ≠ old ∨ old ∈ l ∧ v = new := by
  rw [List.mem_map]
  constructor
  · rintro ⟨x, hx, rfl⟩
    split
    · next heq => exact Or.inr ⟨heq ▸ hx, rfl⟩
    · next hne => exact Or.inl ⟨hx, hne⟩
  · rintro (⟨hv, hne⟩ | ⟨hold, rfl⟩)
    · exact ⟨v, hv, if_neg hne⟩
    · exact ⟨old, hold, if_pos rfl⟩

theorem tokenList_swap {swap : ValueId → ValueId} (hkind : r.kind o = q.kind o)
    (htype : ∀ v, (r.valueType (swap v)).isToken = (q.valueType v).isToken)
    (hoperands : (r.op o).operands = (q.op o).operands.map swap)
    (hdeps : r.deps o = (q.deps o).map swap) : r.tokenList o = (q.tokenList o).map swap := by
  have hfilter : ∀ l : List ValueId, (l.map swap).filter (fun v => (r.valueType v).isToken) =
      (l.filter fun v => (q.valueType v).isToken).map swap := fun l => by
    rw [List.filter_map]
    exact congrArg _ (List.filter_congr fun v _ => htype v)
  rw [tokenList, tokenList, hkind, hoperands, hdeps, ← List.map_drop, hfilter, hfilter]
  split
  · rfl
  · rfl
  · split <;> rfl

section

variable {c : Context} {t : ScopeTree} {input result : ValueId}
variable (hp : p.WellFormed) (h : p.Staged q)
include hp h

theorem Staged.bypasses_join (hd : q.isLive d = true) (hkind : q.kind d = .join)
    (hdeps : q.deps d = [input]) (hresults : (q.op d).results = [result])
    (h' : p.Scoped ((q.replaceUses result input).eraseOp d)) :
    q.Bypasses ((q.replaceUses result input).eraseOp d) d result := by
  have hprunes := h.program.prunes
  have hpkind : p.kind d = .join := hprunes.kind d ▸ hkind
  obtain ⟨-, htypes, hbodies⟩ : OpKind.Shape _ _ _ .join :=
    hpkind ▸ (hp.laidOut d (hprunes.lt hd)).2.2
  rw [← hprunes.results, hresults] at htypes
  obtain ⟨hproducer, hyields⟩ := hprunes.producerOp?_result hp.linked
    (show result ∈ (p.op d).results from hprunes.results d ▸ hresults ▸ List.mem_cons_self)
    (by rw [hpkind]; rfl)
  have htype : (p.valueType result).isToken = true := by
    rw [List.map_singleton, List.singleton_inj] at htypes
    rw [htypes]
    rfl
  have hinput : (p.valueType input).isToken = true := by
    rw [h.tokens d hd input (hdeps ▸ List.mem_singleton_self input)]
    rfl
  have hlist : q.tokenList d = [input] := by rw [tokenList, hkind]; exact hdeps
  have hrewires : q.Rewires (q.replaceUses result input) :=
    rewires_mapLive (fun _ => rfl) fun _ => rfl
  have hlive := (hrewires.isLive d).trans hd
  have hback : ∀ o, ((q.replaceUses result input).eraseOp d).isLive o = true → q.isLive o = true :=
    fun o ho => hrewires.isLive o ▸ (isLive_eraseOp.1 ho).1
  have hleaf : ∀ z, ((q.replaceUses result input).eraseOp d).isLive z = true ↔
      (q.replaceUses result input).isLive z = true ∧ z ≠ d := fun z =>
    (hprunes.rewire hrewires).isLive_eraseOp_leaf hp.linked (lt_of_isLive hlive)
      (by rw [nested, List.map_eq_nil_iff.1 hbodies, List.flatMap_nil])
  have hop : ∀ o, ((q.replaceUses result input).eraseOp d).isLive o = true →
      (((q.replaceUses result input).eraseOp d).op o).operands = (q.op o).operands.map
        (fun v => if v = result then input else v) ∧
      ((q.replaceUses result input).eraseOp d).deps o = (q.deps o).map
        (fun v => if v = result then input else v) := by
    intro o ho
    rw [operands_eraseOp, deps_eraseOp, deps, replaceUses, op_mapLive, if_pos (hback o ho)]
    exact ⟨rfl, rfl⟩
  refine ⟨hd, ?_, hback, fun a w hne ha _ => ?_, hproducer, hyields, fun o v ho => ?_,
    fun o v w ho hv => ?_⟩
  · exact Bool.eq_false_iff.2 fun hd' => ((hleaf d).1 hd').2 rfl
  · exact (hleaf a).2 ⟨(hrewires.isLive a).trans ha, hne⟩
  · rw [hlist, List.mem_singleton]
    rw [tokenList_swap ((h'.prunes.kind o).trans (hprunes.kind o).symm) (fun v => ?_) (hop o ho).1
      (hop o ho).2]
    · exact mem_map_swap
    · rw [h'.prunes.valueType, hprunes.valueType]
      split
      · next heq => rw [heq, hinput, htype]
      · rfl
  · rw [yieldedBy_eq h.program h' hp hback (fun o ho _ => (hop o ho).1) hv, hlist,
      List.mem_singleton]
    exact mem_map_swap

omit hp h in
theorem collapseJoin_cases (q : Program) (o : OpId) : (q.collapseJoin o).1 = q ∨
    ∃ input result results, q.isLive o = true ∧ q.kind o = .join ∧ q.deps o = [input] ∧
      (q.op o).results = result :: results ∧
        (q.collapseJoin o).1 = (q.replaceUses result input).eraseOp o := by
  rw [Program.collapseJoin]
  split
  · next hjoin =>
    rw [Bool.and_eq_true, decide_eq_true_eq] at hjoin
    split
    · next input result results hdeps hres =>
      exact Or.inr ⟨input, result, results, hjoin.1, hjoin.2, hdeps, hres, rfl⟩
    · exact Or.inl rfl
  · exact Or.inl rfl

omit hp h in
theorem isLive_of_collapseJoin (hz : (q.collapseJoin o).1.isLive z = true) :
    q.isLive z = true := by
  rcases collapseJoin_cases q o with heq | ⟨input, result, -, -, -, -, -, heq⟩
  · exact heq ▸ hz
  · have hrewires : q.Rewires (q.replaceUses result input) :=
      rewires_mapLive (fun _ => rfl) fun _ => rfl
    rw [heq] at hz
    exact hrewires.isLive z ▸ (isLive_eraseOp.1 hz).1

omit hp h in
theorem isLive_of_collapseEach (ops : List OpId) (q : Program)
    (hz : (ops.foldl (fun q o => (q.collapseJoin o).1) q).isLive z = true) : q.isLive z = true := by
  induction ops generalizing q with
  | nil => exact hz
  | cons o ops ih => exact isLive_of_collapseJoin (ih _ hz)

/-- What lives waits on tokens as it did. -/
theorem Staged.staged_collapseJoin : p.Staged (q.collapseJoin o).1 := by
  refine ⟨h.program.collapseJoin hp, fun z hz v hv => ?_⟩
  rcases collapseJoin_cases q o with heq | ⟨input, result, -, ho, -, hdeps, -, heq⟩
  · rw [heq] at hz hv
    exact h.tokens z hz v hv
  · have hzlive := isLive_of_collapseJoin hz
    rw [heq, deps_eraseOp, deps, replaceUses, op_mapLive, if_pos hzlive] at hv
    rcases mem_map_swap.1 hv with ⟨hv, -⟩ | ⟨-, rfl⟩
    · exact h.tokens z hzlive v hv
    · exact h.tokens o ho v (hdeps ▸ List.mem_singleton_self v)

/-- A join that is collapsed is taken out of all ways, unless it is to live at last. -/
theorem Staged.contracts_collapseJoin (ht : Laid p c [] none (p.funcs.map (·.body)) t) :
    let r := (q.collapseJoin o).1
    r = q ∨ r.isLive o = false ∧ ∀ last : OpId → Bool, last o = false →
      Contracts (fun z => r.isLive z = true) (fun z => waitsOnControl (p.kind z) = true) o
        (q.Steps fun _ => True) (q.Steps (p.Holds last)) (r.Steps fun _ => True)
        (r.Steps (p.Holds last)) := by
  have h' := h.program.collapseJoin hp (o := o)
  rcases collapseJoin_cases q o with heq | ⟨input, result, results, ho, hkind, hdeps, hres, heq⟩
  · exact Or.inl heq
  rw [heq] at h' ⊢
  obtain ⟨rfl, -⟩ := (h.program.laidOut o ho).results_join hkind hres
  have hprunes := h.program.prunes
  have hpkind : p.kind o = .join := hprunes.kind o ▸ hkind
  have hbypasses := h.bypasses_join hp ho hkind hdeps hres h'
  have hself := h.program.not_awaits_self hp ht ho (by rw [hpkind]; rfl)
  refine Or.inr ⟨hbypasses.gone, fun last hlast => ?_⟩
  refine hbypasses.contracts h.program h' hp hself (fun hholds => ?_) (by rw [hpkind]; rfl)
  have hdefines : p.definingOp? result = some o := (hp.linked.definingOp?_of_result
    (show result ∈ (p.op o).results from hprunes.results o ▸ hres ▸ List.mem_cons_self)).1
  exact Bool.eq_false_iff.1 hlast (hholds.2 o hdefines hpkind)

/-- A join that does not live at last holds nothing, so it may be collapsed. -/
theorem Staged.collapseJoin (ht : Laid p c [] none (p.funcs.map (·.body)) t)
    (hlast : ∀ z, last z = true → (q.collapseJoin o).1.isLive z = true) :
    p.Staged (q.collapseJoin o).1 ∧ p.Keeps last q (q.collapseJoin o).1 := by
  refine ⟨h.staged_collapseJoin hp, fun z hz => isLive_of_collapseJoin hz,
    fun a b isHeld ha hb => ?_⟩
  rcases h.contracts_collapseJoin hp ht (o := o) with heq | ⟨hgone, hcontracts⟩
  · rw [heq]
  · have hnot : last o = false := Bool.eq_false_iff.2 fun ho =>
      Bool.eq_false_iff.1 hgone (hlast o ho)
    exact (hcontracts last hnot).way_iff ha hb

theorem Staged.collapseJoins (ht : Laid p c [] none (p.funcs.map (·.body)) t)
    (hlast : ∀ z, last z = true → q.collapseJoins.1.isLive z = true) :
    p.Staged q.collapseJoins.1 ∧ p.Keeps last q q.collapseJoins.1 := by
  rw [Program.collapseJoins, changeEach_eq] at hlast ⊢
  generalize q.walk = ops at hlast ⊢
  induction ops generalizing q with
  | nil => exact ⟨h, .refl q⟩
  | cons o ops ih =>
    obtain ⟨hstep, hkeeps⟩ := h.collapseJoin hp ht fun z hz =>
      isLive_of_collapseEach ops _ (hlast z hz)
    obtain ⟨hstaged, hkeeps'⟩ := ih hstep hlast
    exact ⟨hstaged, hkeeps.trans hkeeps'⟩

/-- What is left waits on one another as it did, by way of others or not. -/
theorem Staged.transGen_collapseJoins (ht : Laid p c [] none (p.funcs.map (·.body)) t)
    (ha : q.collapseJoins.1.isLive a = true) (hb : q.collapseJoins.1.isLive b = true) :
    TransGen (q.collapseJoins.1.Steps fun _ => True) a b ↔
      TransGen (q.Steps fun _ => True) a b := by
  rw [Program.collapseJoins, changeEach_eq] at ha hb ⊢
  generalize q.walk = ops at ha hb ⊢
  induction ops generalizing q with
  | nil => rfl
  | cons o ops ih =>
    refine (ih (h.staged_collapseJoin hp) ha hb).trans ?_
    rcases h.contracts_collapseJoin hp ht (o := o) with heq | ⟨-, hcontracts⟩
    · rw [heq]
    · exact (hcontracts (fun _ => false) rfl).transGen_iff (isLive_of_collapseEach ops _ ha)
        (isLive_of_collapseEach ops _ hb)

end

end AsyncOrder.Program
