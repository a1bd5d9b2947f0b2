import AsyncOrder.Proofs.Rewriting.Inheriting

/-!
# Ways to calls

A call that waits on control tokens only waits on those that its dependencies lead back to.  So
its gate opens: what is held comes to it, and nothing else does.
-/

namespace AsyncOrder.Program

open Relation

variable {p q r : Program} {last : OpId → Bool} {good : ValueId → Prop} {o z a b : OpId}
variable {v w token : ValueId} {u : OpId}

/-! ## The dependencies of a call -/

theorem mem_deps_addDeps (tokens : List ValueId) (q : Program) (ho : o.index < q.ops.size) :
    v ∈ (tokens.foldl (fun q token => q.addDep o token) q).deps z ↔
      v ∈ q.deps z ∨ z = o ∧ v ∈ tokens := by
  induction tokens generalizing q with
  | nil => simp
  | cons token tokens ih =>
    have hsize : o.index < (q.addDep o token).ops.size := by
      rwa [size_ops_of_strip strip_addDep]
    rw [List.foldl_cons, ih _ hsize, mem_deps_addDep, List.mem_cons]
    simp only [ho, true_and]
    tauto

theorem Prunes.keptDep (h : p.Prunes q) : q.keptDep v = p.keptDep v := by
  rw [Program.keptDep, Program.keptDep, h.definingOp?, h.isControlToken]

theorem isControlToken_eq_of_strip (h : r.strip false = q.strip false) :
    r.isControlToken v = q.isControlToken v :=
  eq_of_strip (f := fun p => p.isControlToken v) (fun _ => isControlToken_strip) h

theorem definingOp?_eq_of_strip (h : r.strip false = q.strip false) :
    r.definingOp? v = q.definingOp? v :=
  eq_of_strip (f := fun p => p.definingOp? v) (fun _ => definingOp?_strip) h

theorem keptDep_eq_of_strip (h : r.strip false = q.strip false) :
    r.keptDep v = q.keptDep v := by
  rw [Program.keptDep, Program.keptDep, definingOp?_eq_of_strip h, isControlToken_eq_of_strip h]

theorem lt_of_waitsOnControl (hkind : waitsOnControl (q.kind o) = true) :
    o.index < q.ops.size := by
  by_contra hle
  rw [kind, op, Array.getElem?_eq_none (Nat.le_of_not_lt hle)] at hkind
  cases hkind

/-- What a call waits on once its dependencies are limited. -/
theorem mem_deps_limitDepsOf (hkind : waitsOnControl (q.kind o) = true) :
    v ∈ (q.limitDepsOf o).1.deps z ↔ if z = o
      then (v ∈ q.deps o ∨ v ∈ q.controlTokens o) ∧ q.keptDep v = true else v ∈ q.deps z := by
  have hlt := lt_of_waitsOnControl hkind
  rw [limitDepsOf, if_pos hkind]
  have hstrip := (Scoped.addDeps (o := o) (q.controlTokens o) q).1
  have hlt' : o.index < ((q.controlTokens o).foldl (fun q token => q.addDep o token) q).ops.size := by
    rwa [size_ops_of_strip hstrip]
  rw [deps_setDeps]
  by_cases hz : z = o
  · rw [if_pos ⟨hz, hlt'⟩, if_pos hz, List.mem_filter, mem_deps_addDeps _ q hlt,
      keptDep_eq_of_strip hstrip]
    simp
  · rw [if_neg fun hz' => hz hz'.1, if_neg hz, mem_deps_addDeps _ q hlt]
    simp [hz]

theorem Prunes.mem_deps_limitDepsOf (h : p.Prunes q) (hkind : waitsOnControl (p.kind o) = true) :
    v ∈ (q.limitDepsOf o).1.deps z ↔ if z = o
      then (v ∈ q.deps o ∨ v ∈ q.controlTokens o) ∧ p.keptDep v = true else v ∈ q.deps z := by
  rw [Program.mem_deps_limitDepsOf (h.kind o ▸ hkind), h.keptDep]

theorem strip_limitDepsOf : (q.limitDepsOf o).1.strip false = q.strip false := by
  rw [limitDepsOf]
  split
  · exact ops_strip_setDeps.trans (Scoped.addDeps _ q).1
  · rfl

/-! ## Tokens that hold -/

section

variable (h : p.Scoped q) (hp : p.WellFormed)
include h

/-- Where all joins live at last, control tokens hold. -/
theorem Scoped.holds_iff (hp : p.Linked) (hall : ∀ z, q.isLive z = true → last z = true)
    (hv : q.InView o v) : p.Holds last v ↔ p.isControlToken v = true :=
  and_iff_left fun z hz _ => hall z
    (h.prunes.isLive_of_inView hp hv ((h.prunes.definingOp? v).trans hz))

/-- A token that is no control token is produced by the asynchronous operation that has it. -/
theorem Scoped.madeBy_plain (hv : p.isControlToken v = false) :
    q.MadeBy v z ↔ p.definingOp? v = some z ∧ (p.kind z).isAsync = true := by
  rw [isControlToken, Bool.or_eq_false_iff] at hv
  obtain ⟨hcarried, hkind⟩ := hv
  rw [Option.isSome_eq_false_iff, Option.isNone_iff_eq_none] at hcarried
  have hnil : q.yieldedBy v = [] := by
    refine List.eq_nil_iff_forall_not_mem.2 fun w hw => ?_
    obtain ⟨-, y, -, -, -, hy, hbranch, -⟩ := mem_yieldedBy_iff.1 hw
    rw [h.prunes.definingOp?] at hy
    rw [h.prunes.kind] at hbranch
    rw [hy, Option.map_some, hbranch] at hkind
    cases hkind
  have hproducer : q.producerOp? v = some z ↔
      p.definingOp? v = some z ∧ (p.kind z).isAsync = true := by
    rw [producerOp?, h.prunes.carriedOwner?, hcarried, h.prunes.definingOp?]
    cases hd : p.definingOp? v with
    | none => simp
    | some d =>
      rw [hd, Option.map_some] at hkind
      simp only [Option.bind_some, h.prunes.kind, Option.some.injEq]
      split
      · next hloop =>
        rw [hloop] at hkind
        cases hkind
      · split
        · next hasync =>
          rw [Option.some.injEq]
          exact ⟨fun heq => ⟨heq, heq ▸ hasync⟩, And.left⟩
        · next hasync => exact iff_of_false (by simp) fun h => hasync (h.1 ▸ h.2)
  constructor
  · rintro ⟨w, hvw, hw⟩
    rcases ReflTransGen.cases_head hvw with rfl | ⟨x, hx, -⟩
    · exact hproducer.1 hw
    · rw [Leads, hnil] at hx
      exact absurd hx List.not_mem_nil
  · exact fun hz => ⟨v, .refl, hproducer.2 hz⟩

/-- What an operation waits on itself. -/
theorem Scoped.tokenList_eq (ho : (p.kind o).isAsync = true) : q.tokenList o = q.deps o :=
  tokenList_of_isAsync ((h.prunes.kind o).symm ▸ ho)

include hp

/-- What the dependencies lead back to is waited on at the end of plain steps. -/
theorem Scoped.leads_behind_iff (ho : q.isLive o = true) (hasync : (p.kind o).isAsync = true) :
    (∃ s ∈ q.deps o, ReflTransGen q.LeadsBack s v) ↔ ∃ c, q.isLive c = true ∧
      v ∈ q.tokenList c ∧ ReflTransGen (q.Steps fun v => p.isControlToken v = false) c o := by
  constructor
  · rintro ⟨s, hs, hsv⟩
    induction hsv with
    | refl => exact ⟨o, ho, h.tokenList_eq hasync ▸ hs, .refl⟩
    | @tail w v _ hwv ih =>
      obtain ⟨c, hlive, hwc, hco⟩ := ih
      obtain ⟨hcontrol, z, hz, hkind, hv⟩ := hwv
      rw [h.prunes.isControlToken] at hcontrol
      rw [h.prunes.definingOp?] at hz
      rw [h.prunes.kind] at hkind
      have hstep : q.AwaitsBy (fun v => p.isControlToken v = false) c z :=
        ⟨w, hwc, hcontrol, (h.madeBy_plain hcontrol).2 ⟨hz, hkind⟩⟩
      exact ⟨z, h.isLive_of_awaits hp hlive hstep.awaits, h.tokenList_eq hkind ▸ hv,
        .head ⟨hlive, hstep⟩ hco⟩
  · rintro ⟨c, -, hv, hco⟩
    induction hco using ReflTransGen.head_induction_on generalizing v with
    | refl => exact ⟨v, h.tokenList_eq hasync ▸ hv, .refl⟩
    | @head c b hcb _ ih =>
      obtain ⟨-, w, hw, hcontrol, hmade⟩ := hcb
      obtain ⟨s, hs, hsw⟩ := ih hw
      obtain ⟨hdefines, hkind⟩ := (h.madeBy_plain hcontrol).1 hmade
      refine ⟨s, hs, hsw.tail ⟨?_, c, ?_, ?_, ?_⟩⟩
      · rwa [h.prunes.isControlToken]
      · rwa [h.prunes.definingOp?]
      · rwa [h.prunes.kind]
      · rwa [← h.tokenList_eq hkind]

theorem Scoped.mem_controlTokens_iff (ho : q.isLive o = true) (hasync : (p.kind o).isAsync = true) :
    v ∈ q.controlTokens o ↔ p.isControlToken v = true ∧ ∃ c, q.isLive c = true ∧
      v ∈ q.tokenList c ∧ ReflTransGen (q.Steps fun v => p.isControlToken v = false) c o := by
  obtain ⟨vs, hlength, hvs⟩ := h.exists_viewed hp
  have hclosed : ∀ x ∈ vs, ∀ y ∈ q.waitsBehind x, y ∈ vs := fun x hx y hy => by
    obtain ⟨b, hb, hview⟩ := (hvs x).1 hx
    obtain ⟨-, z, hz, -, hy⟩ := leads_waitsBehind.1 hy
    have hlive := h.prunes.isLive_of_inView hp.linked hview hz
    exact (hvs y).2 ⟨z, hlive, h.wellScoped z hlive y (List.mem_append_right _ hy)⟩
  have hfirst : ∀ x ∈ q.deps o, x ∈ vs := fun x hx =>
    (hvs x).2 ⟨o, ho, h.wellScoped o ho x (List.mem_append_right _ hx)⟩
  rw [controlTokens, List.mem_filter, h.prunes.isControlToken, and_comm,
    ← h.leads_behind_iff hp ho hasync, mem_visit_iff hclosed hfirst hlength, leads_waitsBehind_eq]

end

/-! ## One call -/

section

variable (h : p.Scoped q) (hp : p.WellFormed) (hall : ∀ z, q.isLive z = true → last z = true)
variable (ho : q.isLive o = true) (hkind : waitsOnControl (p.kind o) = true)
include h hp ho hkind

/-- What holds on the way to the call, and nothing else, comes to it. -/
theorem Scoped.steps_limited : (q.limitDepsOf o).1.Steps (p.Holds last) a o ↔ ∃ c,
    q.Steps (p.Holds last) a c ∧
      ReflTransGen (q.Steps fun v => p.isControlToken v = false) c o := by
  have hasync : (p.kind o).isAsync = true := by
    cases hk : p.kind o <;> simp_all [waitsOnControl, OpKind.isAsync]
  have h' := h.limitDepsOf hp (o := o)
  have hrewires := rewires_of_strip (strip_limitDepsOf (q := q) (o := o))
  have ho' := (hrewires.isLive o).trans ho
  have hmade : ∀ v ∈ (q.limitDepsOf o).1.deps o,
      ((q.limitDepsOf o).1.MadeBy v a ↔ q.MadeBy v a) := fun v hv =>
    madeBy_congr h h' hp (fun z hz => hrewires.isLive z ▸ hz)
      (fun z _ _ => operands_eq_of_strip strip_limitDepsOf z) ho'
      (h'.wellScoped o ho' v (List.mem_append_right _ hv))
  constructor
  · rintro ⟨-, v, hv, hholds, hz⟩
    rw [h'.tokenList_eq hasync] at hv
    have hz := (hmade v hv).1 hz
    rw [h.prunes.mem_deps_limitDepsOf hkind, if_pos rfl] at hv
    obtain ⟨hv | hv, -⟩ := hv
    · exact ⟨o, ⟨ho, v, h.tokenList_eq hasync ▸ hv, hholds, hz⟩, .refl⟩
    · obtain ⟨-, c, hlive, hvc, hco⟩ := (h.mem_controlTokens_iff hp ho hasync).1 hv
      exact ⟨c, ⟨hlive, v, hvc, hholds, hz⟩, hco⟩
  · rintro ⟨c, ⟨hlive, v, hvc, hholds, hz⟩, hco⟩
    have hv : v ∈ (q.limitDepsOf o).1.deps o := by
      rw [h.prunes.mem_deps_limitDepsOf hkind, if_pos rfl, keptDep, hholds.1, Bool.or_true]
      exact ⟨Or.inr ((h.mem_controlTokens_iff hp ho hasync).2 ⟨hholds.1, c, hlive, hvc, hco⟩), rfl⟩
    exact ⟨ho', v, h'.tokenList_eq hasync ▸ hv, hholds, (hmade v hv).2 hz⟩

include hall

/-- The gate of the call opens. -/
theorem Scoped.opens {ops : List OpId} (hnot : o ∉ ops) :
    Opens (fun b => b ∈ o :: ops ∧ waitsOnControl (p.kind b) = true)
      (fun b => b ∈ ops ∧ waitsOnControl (p.kind b) = true) o (q.Steps fun _ => True)
      (q.Steps (p.Holds last)) (q.Steps fun v => p.isControlToken v = false)
      ((q.limitDepsOf o).1.Steps fun _ => True) ((q.limitDepsOf o).1.Steps (p.Holds last)) := by
  have hasync : (p.kind o).isAsync = true := by
    cases hk : p.kind o <;> simp_all [waitsOnControl, OpKind.isAsync]
  have h' := h.limitDepsOf hp (o := o)
  have hrewires := rewires_of_strip (strip_limitDepsOf (q := q) (o := o))
  have hsame : ∀ good a b, b ≠ o →
      ((q.limitDepsOf o).1.Steps good a b ↔ q.Steps good a b) := by
    intro good a b hne
    by_cases hb : q.isLive b = true
    · refine steps_congr h h' hp (fun z hz => hrewires.isLive z ▸ hz)
        (fun z _ _ => operands_eq_of_strip strip_limitDepsOf z) ((hrewires.isLive b).trans hb)
        fun v => ?_
      rw [h.prunes.mem_deps_limitDepsOf hkind, if_neg hne]
    · exact iff_of_false (fun hab => hb (hrewires.isLive b ▸ hab.1)) fun hab => hb hab.1
  refine ⟨⟨List.mem_cons_self, hkind⟩, fun b => ?_, fun a b => ?_, fun a b => hsame _ a b,
    fun a b => hsame _ a b, fun a => ⟨?_, Steps.weaken⟩, fun a => h.steps_limited hp ho hkind⟩
  · rw [List.mem_cons]
    constructor
    · exact fun hb => ⟨⟨Or.inr hb.1, hb.2⟩, fun heq => hnot (heq ▸ hb.1)⟩
    · rintro ⟨⟨rfl | hb, hkind⟩, hne⟩
      · exact absurd rfl hne
      · exact ⟨hb, hkind⟩
  · constructor
    · rintro ⟨hb, v, hv, -, hz⟩
      cases hcontrol : p.isControlToken v with
      | true =>
        have hholds := (h.holds_iff hp.linked hall (h.used_inView hb hv)).2 hcontrol
        exact Or.inl ⟨hb, v, hv, hholds, hz⟩
      | false => exact Or.inr ⟨hb, v, hv, hcontrol, hz⟩
    · exact fun hab => hab.elim Steps.weaken Steps.weaken
  · rintro ⟨ho', v, hv, -, hz⟩
    refine ⟨ho', v, hv, ?_, hz⟩
    rw [h'.holds_iff hp.linked (fun z hz => hall z (hrewires.isLive z ▸ hz)) (h'.used_inView ho' hv)]
    rw [h'.tokenList_eq hasync, h.prunes.mem_deps_limitDepsOf hkind, if_pos rfl, keptDep,
      Bool.or_eq_true] at hv
    rcases hv.2 with hnone | hcontrol
    · -- nothing produces a token that comes from outside
      by_contra hcontrol
      obtain ⟨hdefines, -⟩ := (h'.madeBy_plain (Bool.eq_false_iff.2 hcontrol)).1 hz
      rw [hdefines] at hnone
      cases hnone
    · exact hcontrol

end

/-! ## All calls -/

/-- The gates of the calls open one after the other. -/
theorem Scoped.exists_way_limited (h : p.Scoped q) (hp : p.WellFormed)
    (hall : ∀ z, q.isLive z = true → last z = true) {ops : List OpId} (hnodup : ops.Nodup)
    (hlive : ∀ o ∈ ops, q.isLive o = true) :
    ReflTransGen ((ops.foldl (fun q o => (q.limitDepsOf o).1) q).Steps fun _ => True) a b ↔
      ∃ isHeld, Way (q.Steps fun _ => True) (q.Steps (p.Holds last))
        (fun b => b ∈ ops ∧ waitsOnControl (p.kind b) = true) a isHeld b := by
  induction ops generalizing q with
  | nil => exact (exists_way_iff (fun _ _ => Steps.weaken) fun b hb => List.not_mem_nil hb.1).symm
  | cons o ops ih =>
    obtain ⟨hnot, hnodup⟩ := List.nodup_cons.1 hnodup
    have ho := hlive o List.mem_cons_self
    have hsame := (rewires_of_strip (strip_limitDepsOf (q := q) (o := o))).isLive
    have hrest := ih (h.limitDepsOf hp (o := o)) (fun z hz => hall z (hsame z ▸ hz)) hnodup
      fun z hz => (hsame z).trans (hlive z (List.mem_cons_of_mem _ hz))
    refine hrest.trans ?_
    by_cases hkind : waitsOnControl (p.kind o) = true
    · exact (h.opens hp hall ho hkind hnot).way_iff
    · have hgate : (fun b => b ∈ o :: ops ∧ waitsOnControl (p.kind b) = true) =
          fun b => b ∈ ops ∧ waitsOnControl (p.kind b) = true := by
        funext b
        rw [List.mem_cons, or_and_right, eq_iff_iff, or_iff_right]
        rintro ⟨rfl, hb⟩
        exact hkind hb
      rw [hgate, Program.limitDepsOf, if_neg (h.prunes.kind o ▸ hkind)]

/-- After the pass paths are what ways were before. -/
theorem Scoped.path_limitHierarchyDeps (h : p.Scoped q) (hp : p.WellFormed)
    (hall : ∀ z, q.isLive z = true → last z = true) :
    ReflTransGen (q.limitHierarchyDeps.1.Steps fun _ => True) a b ↔
      ∃ isHeld, p.Ways last q a isHeld b := by
  rw [Program.limitHierarchyDeps, changeEach_eq, h.exists_way_limited hp hall (h.prunes.nodup_walk hp)
    fun o ho => (h.prunes.mem_walk hp).1 ho]
  refine exists_congr fun isHeld => way_congr_gate fun a b hab => ?_
  exact and_iff_right ((h.prunes.mem_walk hp).2 hab.1)

/-! ## Cleaning up -/

theorem WellFormed.staged (hp : p.WellFormed) : p.Staged p :=
  ⟨hp.scoped, fun o ho _ hv => (hp.laidOut o (lt_of_isLive ho)).2.1 _ (List.mem_map_of_mem hv)⟩

theorem strip_limitHierarchyDeps : q.limitHierarchyDeps.1.strip false = q.strip false := by
  rw [limitHierarchyDeps, changeEach_eq]
  generalize q.walk = ops
  induction ops generalizing q with
  | nil => rfl
  | cons z ops ih => exact ih.trans strip_limitDepsOf

theorem isLive_limitHierarchyDeps : q.limitHierarchyDeps.1.isLive o = q.isLive o :=
  (rewires_of_strip strip_limitHierarchyDeps).isLive o

theorem cleanup_eq (q : Program) :
    q.cleanup.1 = (removeUnusedParams (limitHierarchyDeps (dedupDeps (collapseJoins
      (removeDeadComputes q.dedupDeps.1).1).1).1).1).1 := by
  simp only [cleanup]

/-- The first passes keep the ways between what is left. -/
theorem Staged.keeps_collapsed {c : Context} {t : ScopeTree} (h : p.Staged q) (hp : p.WellFormed)
    (ht : Laid p c [] none (p.funcs.map (·.body)) t)
    (hlast : ∀ z, last z = true →
      q.dedupDeps.1.removeDeadComputes.1.collapseJoins.1.dedupDeps.1.isLive z = true) :
    p.Staged q.dedupDeps.1.removeDeadComputes.1.collapseJoins.1.dedupDeps.1 ∧
      p.Keeps last q q.dedupDeps.1.removeDeadComputes.1.collapseJoins.1.dedupDeps.1 := by
  obtain ⟨h, hdedup⟩ : _ ∧ p.Keeps last _ _ := h.dedupDeps hp
  obtain ⟨h, hdead⟩ : _ ∧ p.Keeps last _ _ := h.removeDeadComputes hp ht
  obtain ⟨h, hjoins⟩ := h.collapseJoins hp ht fun z hz =>
    (rewires_of_strip strip_dedupDeps).isLive z ▸ hlast z hz
  obtain ⟨h, hagain⟩ : _ ∧ p.Keeps last _ _ := h.dedupDeps hp
  exact ⟨h, ((hdedup.trans hdead).trans hjoins).trans hagain⟩

/-- What cleaning up leaves are the ways before it, held by the control tokens of what is left. -/
theorem Staged.path_cleanup {c : Context} {t : ScopeTree} (h : p.Staged q) (hp : p.WellFormed)
    (ht : Laid p c [] none (p.funcs.map (·.body)) t) (ha : q.cleanup.1.isLive a = true)
    (hb : q.cleanup.1.isLive b = true) :
    ReflTransGen (q.cleanup.1.Steps fun _ => True) a b ↔
      ∃ isHeld, p.Ways q.cleanup.1.isLive q a isHeld b := by
  have hkeeps := @Staged.keeps_collapsed p q q.cleanup.1.isLive c t h hp ht
  have hcleanup := q.cleanup_eq
  generalize q.dedupDeps.1.removeDeadComputes.1.collapseJoins.1.dedupDeps.1 = r at hcleanup hkeeps
  have hlive : ∀ z, q.cleanup.1.isLive z = r.isLive z := fun z => by
    rw [hcleanup, passes_removeUnusedParams.isLive, isLive_limitHierarchyDeps]
  obtain ⟨h', hkeeps⟩ := hkeeps fun z hz => hlive z ▸ hz
  have hsteps : q.cleanup.1.Steps (fun _ => True) = r.limitHierarchyDeps.1.Steps fun _ => True := by
    rw [hcleanup]
    exact (h'.program.limitHierarchyDeps hp).steps_removeUnusedParams hp
  rw [hsteps, h'.program.path_limitHierarchyDeps hp fun z hz => (hlive z).trans hz]
  exact exists_congr fun isHeld => hkeeps.ways_iff a b isHeld (hlive a ▸ ha) (hlive b ▸ hb)

end AsyncOrder.Program
