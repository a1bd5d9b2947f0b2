import AsyncOrder.Proofs.Dependence.Control
import AsyncOrder.Proofs.Rewriting.Collapsing

/-!
# Limiting calls in any order

In a program with any dependency lists, circular ones included, limiting the calls one after the
other gives what limiting all of them at once would give:

    p.Limits q calls → (v ∈ q.controlTokens o ↔ v ∈ p.controlTokens o)   (Limits.mem_controlTokens)
    p.Limits q calls → q.Limits r more → p.Limits r (calls or more)       (Limits.trans)

A way back that passes a limited call goes on from a token of its list that a way in the program
before led to; and a way in the program before that passes a call ends in its list.  So it does
not matter which calls have been limited when the tokens of a call are looked for.
-/

namespace AsyncOrder.Program

open Relation

variable {p q r : Program} {calls more : OpId → Prop} {ops : List OpId} {o z : OpId}
variable {t v : ValueId}

/-- `q` is `p` with the dependencies of all `calls` limited. -/
structure Limits (p q : Program) (calls : OpId → Prop) : Prop where
  strip : q.strip false = p.strip false
  async : ∀ o, calls o → (p.kind o).isAsync = true
  limited : ∀ o, calls o → ∀ v,
    v ∈ q.deps o ↔ v ∈ p.controlTokens o ∨ v ∈ p.deps o ∧ p.definingOp? v = none
  untouched : ∀ o, ¬ calls o → q.deps o = p.deps o

namespace Limits

variable (h : p.Limits q calls) (hp : p.NamesDeps)
include h

theorem namesDeps (hp : p.NamesDeps) : q.NamesDeps := by
  intro o v hv
  rw [values_eq_of_strip h.strip]
  by_cases ho : calls o
  · rcases (h.limited o ho v).1 hv with hv | hv
    · exact hp.lt_of_mem_controlTokens hv
    · exact hp o v hv.1
  · exact hp o v (h.untouched o ho ▸ hv)

include hp

/-- What a limited list names, the list led back to. -/
theorem exists_of_mem_deps (hv : v ∈ q.deps o) :
    ∃ s ∈ p.deps o, ReflTransGen p.LeadsBack s v := by
  by_cases ho : calls o
  · rcases (h.limited o ho v).1 hv with hv | hv
    · exact (hp.mem_controlTokens_iff.1 hv).2
    · exact ⟨v, hv.1, .refl⟩
  · exact ⟨v, h.untouched o ho ▸ hv, .refl⟩

/-- Every step back is a way back in the program before. -/
theorem leadsBack_before (htv : q.LeadsBack t v) : ReflTransGen p.LeadsBack t v := by
  obtain ⟨hcontrol, z, hdefines, hasync, hv⟩ := htv
  rw [isControlToken_eq_of_strip h.strip] at hcontrol
  rw [definingOp?_eq_of_strip h.strip] at hdefines
  rw [kind_eq_of_strip h.strip] at hasync
  obtain ⟨s, hs, hsv⟩ := h.exists_of_mem_deps hp hv
  exact .head ⟨hcontrol, z, hdefines, hasync, hs⟩ hsv

theorem way_before (htv : ReflTransGen q.LeadsBack t v) : ReflTransGen p.LeadsBack t v := by
  induction htv with
  | refl => exact .refl
  | tail _ hstep ih => exact ih.trans (h.leadsBack_before hp hstep)

/-- A way back to a control token is left: what it passed over the list of a call, the list
names. -/
theorem leadsBack_after (hv : p.isControlToken v = true) (htv : ReflTransGen p.LeadsBack t v) :
    ReflTransGen q.LeadsBack t v := by
  induction htv using ReflTransGen.head_induction_on with
  | refl => exact .refl
  | @head t s hts hsv ih =>
    obtain ⟨hcontrol, z, hdefines, hasync, hs⟩ := hts
    have hstep : ∀ w ∈ q.deps z, q.LeadsBack t w := by
      intro w hw
      refine ⟨?_, z, ?_, ?_, hw⟩
      · rwa [isControlToken_eq_of_strip h.strip]
      · rwa [definingOp?_eq_of_strip h.strip]
      · rwa [kind_eq_of_strip h.strip]
    by_cases hz : calls z
    · refine .single (hstep v ((h.limited z hz v).2 (Or.inl ?_)))
      exact hp.mem_controlTokens_iff.2 ⟨hv, s, hs, hsv⟩
    · exact .head (hstep s (h.untouched z hz ▸ hs)) ih

/-- Limiting calls leaves all control tokens as they are. -/
theorem mem_controlTokens : v ∈ q.controlTokens o ↔ v ∈ p.controlTokens o := by
  rw [(h.namesDeps hp).mem_controlTokens_iff, hp.mem_controlTokens_iff,
    isControlToken_eq_of_strip h.strip]
  refine and_congr_right fun hcontrol => ⟨?_, ?_⟩
  · rintro ⟨s, hs, hsv⟩
    obtain ⟨s', hs', hss⟩ := h.exists_of_mem_deps hp hs
    exact ⟨s', hs', hss.trans (h.way_before hp hsv)⟩
  · rintro ⟨s, hs, hsv⟩
    by_cases ho : calls o
    · refine ⟨v, (h.limited o ho v).2 (Or.inl ?_), .refl⟩
      exact hp.mem_controlTokens_iff.2 ⟨hcontrol, s, hs, hsv⟩
    · exact ⟨s, h.untouched o ho ▸ hs, h.leadsBack_after hp hcontrol hsv⟩

/-- More calls are limited later as they would have been at first. -/
theorem trans (h' : q.Limits r more) : p.Limits r fun o => calls o ∨ more o := by
  have hdefining : ∀ v, q.definingOp? v = p.definingOp? v := fun v =>
    definingOp?_eq_of_strip h.strip
  refine ⟨h'.strip.trans h.strip, fun o ho => ?_, fun o ho v => ?_, fun o ho => ?_⟩
  · exact ho.elim (h.async o) fun ho => kind_eq_of_strip h.strip o ▸ h'.async o ho
  · by_cases hmore : more o
    · rw [h'.limited o hmore, h.mem_controlTokens hp, hdefining]
      by_cases hcall : calls o
      · rw [h.limited o hcall]
        tauto
      · rw [h.untouched o hcall]
    · rw [h'.untouched o hmore, h.limited o (ho.resolve_right hmore)]
  · rw [not_or] at ho
    rw [h'.untouched o ho.2, h.untouched o ho.1]

end Limits

/-! ## One call after the other -/

theorem limits_refl (p : Program) : p.Limits p fun _ => False :=
  ⟨rfl, fun _ ho => ho.elim, fun _ ho => ho.elim, fun _ _ => rfl⟩

/-- A call is limited to its control tokens and what comes from outside all operations. -/
theorem limits_limitDepsOf (hp : p.NamesDeps) :
    p.Limits (p.limitDepsOf o).1 fun z => z = o ∧ waitsOnControl (p.kind o) = true := by
  refine ⟨strip_limitDepsOf, ?_, ?_, fun z hz => ?_⟩
  · rintro z ⟨rfl, hkind⟩
    exact Scoped.isAsync_of_waitsOnControl hkind
  · rintro z ⟨rfl, hkind⟩ v
    rw [mem_deps_limitDepsOf hkind, if_pos rfl, keptDep, Bool.or_eq_true,
      Option.isNone_iff_eq_none]
    have hcontrol : v ∈ p.controlTokens z → p.isControlToken v = true := fun hv =>
      (hp.mem_controlTokens_iff.1 hv).1
    have hown : v ∈ p.deps z → p.isControlToken v = true → v ∈ p.controlTokens z :=
      fun hv hcontrol => hp.mem_controlTokens_iff.2 ⟨hcontrol, v, hv, .refl⟩
    tauto
  · exact deps_limitDepsOf_of_ne fun hkind heq => hz ⟨heq, hkind⟩

theorem Limits.congr (h : p.Limits q calls) (hsame : ∀ o, more o ↔ calls o) :
    p.Limits q more := by
  rwa [funext fun o => propext (hsame o)]

/-- The calls of a list are limited as if all at once. -/
theorem limits_changeEach (hp : p.NamesDeps) (ops : List OpId) :
    p.Limits (p.changeEach ops limitDepsOf).1
      fun o => o ∈ ops ∧ waitsOnControl (p.kind o) = true := by
  rw [changeEach_eq]
  induction ops generalizing p with
  | nil => exact (limits_refl p).congr fun o => by simp
  | cons o ops ih =>
    have hfirst := limits_limitDepsOf (o := o) hp
    refine (hfirst.trans hp (ih (hfirst.namesDeps hp))).congr fun z => ?_
    rw [kind_eq_of_strip strip_limitDepsOf, List.mem_cons, or_and_right]
    refine or_congr_left (and_congr_right fun heq => ?_)
    rw [heq]

/-! ## Limited calls -/

/-- A call that waits on its control tokens, and on nothing that is not kept, stays as it is. -/
theorem limitDepsOf_eq_self (hcontrol : ∀ v ∈ p.controlTokens o, v ∈ p.deps o)
    (hkept : ∀ v ∈ p.deps o, p.keptDep v = true) : p.limitDepsOf o = (p, 0) := by
  have hadd : (p.controlTokens o).foldl (fun q token => q.addDep o token) p = p :=
    List.foldlRecOn (motive := fun q : Program => q = p) _ _ rfl fun q hq v hv => by
      rw [hq, addDep, if_pos (hcontrol v hv)]
  simp only [limitDepsOf, hadd, List.filter_eq_self.2 hkept, setDeps_deps, Nat.sub_self, ite_self]

theorem changeEach_eq_self {change : Program → OpId → Program × Nat}
    (h : ∀ o ∈ ops, change p o = (p, 0)) : p.changeEach ops change = (p, 0) :=
  List.foldlRecOn (motive := fun x : Program × Nat => x = (p, 0)) ops _ rfl
    fun x hx o ho => by simp only [hx, h o ho]

/-- Limiting the calls a second time changes nothing. -/
theorem limitHierarchyDeps_limited (hp : p.NamesDeps) :
    p.limitHierarchyDeps.1.limitHierarchyDeps = (p.limitHierarchyDeps.1, 0) := by
  have h := limits_changeEach hp p.walk
  rw [← limitHierarchyDeps] at h
  generalize p.limitHierarchyDeps.1 = q at h
  refine changeEach_eq_self fun o ho => ?_
  by_cases hkind : waitsOnControl (p.kind o) = true
  · have hwalk : q.walk = p.walk := eq_of_strip (f := walk) (fun _ => walk_strip) h.strip
    have hcall := h.limited o ⟨hwalk ▸ ho, hkind⟩
    refine limitDepsOf_eq_self (fun v hv => ?_) fun v hv => ?_
    · exact (hcall v).2 (Or.inl ((h.mem_controlTokens hp).1 hv))
    · rw [keptDep_eq_of_strip h.strip, keptDep, Bool.or_eq_true, Option.isNone_iff_eq_none]
      rcases (hcall v).1 hv with hv | hv
      · exact Or.inr (hp.mem_controlTokens_iff.1 hv).1
      · exact Or.inl hv.2
  · rw [limitDepsOf, kind_eq_of_strip h.strip, if_neg hkind]

/-! ## Any dependency lists -/

theorem WellFormed.namesDeps (hp : p.WellFormed) : p.NamesDeps := by
  intro o v hv
  have ho : o.index < p.ops.size := lt_of_mem_deps hv
  exact hp.used o ho v (List.mem_append_right _ hv)

/-- A dependency list may be any list of values. -/
theorem NamesDeps.setDeps (hp : p.NamesDeps) {ds : List ValueId}
    (hds : ∀ v ∈ ds, v.index < p.values.size) : (p.setDeps o ds).NamesDeps := by
  intro z v hv
  rw [deps_setDeps] at hv
  rw [values_eq_of_strip ops_strip_setDeps]
  split at hv
  · exact hds v hv
  · exact hp z v hv

/-- What control tokens an operation has is a matter of what its dependencies lead back to, and
limiting the calls, one after the other and in any order, gives each of them just its own. -/
theorem controlTokens_exact (p : Program) (hp : p.NamesDeps) :
    (∀ o, (∀ more, (visit p.waitsBehind (p.values.size + more) (p.deps o) .empty).filter
          p.isControlToken = p.controlTokens o) ∧
        (p.controlTokens o).Nodup ∧ ∀ v, v ∈ p.controlTokens o ↔
          p.isControlToken v = true ∧ ∃ s ∈ p.deps o, ReflTransGen p.LeadsBack s v) ∧
    let q := p.limitHierarchyDeps.1
    q.strip false = p.strip false ∧
    (∀ o v, v ∈ q.controlTokens o ↔ v ∈ p.controlTokens o) ∧
    (∀ o ∈ p.walk, waitsOnControl (p.kind o) = true → ∀ v,
      v ∈ q.deps o ↔ v ∈ p.controlTokens o ∨ v ∈ p.deps o ∧ p.definingOp? v = none) ∧
    (∀ o, ¬ (o ∈ p.walk ∧ waitsOnControl (p.kind o) = true) → q.deps o = p.deps o) ∧
    q.limitHierarchyDeps = (q, 0) ∧
    ∀ ops : List OpId, (∀ o, o ∈ ops ↔ o ∈ p.walk) →
      ∀ o v, v ∈ (p.changeEach ops limitDepsOf).1.deps o ↔ v ∈ q.deps o := by
  have h := limits_changeEach hp p.walk
  rw [← limitHierarchyDeps] at h
  refine ⟨fun o => ⟨hp.controlTokens_eq, nodup_controlTokens, fun v => hp.mem_controlTokens_iff⟩,
    h.strip, fun o v => h.mem_controlTokens hp, fun o ho hkind => h.limited o ⟨ho, hkind⟩,
    h.untouched, limitHierarchyDeps_limited hp, fun ops hops o v => ?_⟩
  have h' := (limits_changeEach hp ops).congr fun o => and_congr_left fun _ => (hops o).symm
  by_cases ho : o ∈ p.walk ∧ waitsOnControl (p.kind o) = true
  · rw [h.limited o ho, h'.limited o ho]
  · rw [h.untouched o ho, h'.untouched o ho]

/-- Two computes, a segment and a herd; the first compute is to wait on all three others. -/
def waitingChain : String := "func @f(%o: token, %n: index) \x7b
  %a = join
  %t, %k = compute [%a] \x7b
    yield %n
  \x7d
  %u, %l = compute [%t, %o] \x7b
    yield %n
  \x7d
  %s = segment [%u, %o] \x7b
    end
  \x7d
  %h = herd [%s, %t] \x7b
    end
  \x7d
\x7d
"

theorem controlTokens_exact_waitingChain : ∃ p, readProgram waitingChain = .ok p ∧
    let r := p.setDeps ⟨2⟩ [⟨5⟩, ⟨8⟩, ⟨2⟩, ⟨7⟩]
    (r.NamesDeps ∧ r.LeadsBack ⟨3⟩ ⟨5⟩ ∧ r.LeadsBack ⟨5⟩ ⟨3⟩) ∧
      (∀ v, v ∈ r.limitHierarchyDeps.1.deps ⟨6⟩ ↔
        v ∈ r.controlTokens ⟨6⟩ ∨ v ∈ r.deps ⟨6⟩ ∧ r.definingOp? v = none) ∧
      r.limitHierarchyDeps.1.deps ⟨6⟩ = [⟨0⟩, ⟨2⟩] ∧ r.limitHierarchyDeps.1.deps ⟨8⟩ = [⟨2⟩] ∧
      r.limitHierarchyDeps.1.limitHierarchyDeps = (r.limitHierarchyDeps.1, 0) := by
  obtain ⟨p, hsource, htest⟩ := accepts_iff.1
    (show accepts waitingChain (fun p =>
      let r := p.setDeps ⟨2⟩ [⟨5⟩, ⟨8⟩, ⟨2⟩, ⟨7⟩]
      (p.values.size = 9 ∧ ⟨6⟩ ∈ r.walk ∧ waitsOnControl (r.kind ⟨6⟩) = true) ∧
        (r.isControlToken ⟨3⟩ = false ∧ r.definingOp? ⟨3⟩ = some ⟨2⟩ ∧
          (r.kind ⟨2⟩).isAsync = true ∧ ⟨5⟩ ∈ r.deps ⟨2⟩) ∧
        (r.isControlToken ⟨5⟩ = false ∧ r.definingOp? ⟨5⟩ = some ⟨4⟩ ∧
          (r.kind ⟨4⟩).isAsync = true ∧ ⟨3⟩ ∈ r.deps ⟨4⟩) ∧
        r.limitHierarchyDeps.1.deps ⟨6⟩ = [⟨0⟩, ⟨2⟩] ∧
        r.limitHierarchyDeps.1.deps ⟨8⟩ = [⟨2⟩]) = true by decide +kernel)
  obtain ⟨⟨hsize, hwalk, hkind⟩, ⟨h₁, h₂, h₃, h₄⟩, ⟨h₅, h₆, h₇, h₈⟩, hsegment, hherd⟩ :=
    of_decide_eq_true htest
  have hnames : (p.setDeps ⟨2⟩ [⟨5⟩, ⟨8⟩, ⟨2⟩, ⟨7⟩]).NamesDeps := by
    refine (wellFormed_of_readProgram hsource).namesDeps.setDeps fun v hv => ?_
    rw [hsize]
    simp only [List.mem_cons, List.not_mem_nil, or_false] at hv
    rcases hv with rfl | rfl | rfl | rfl <;> decide
  obtain ⟨-, -, -, hcalls, -, hagain, -⟩ := controlTokens_exact _ hnames
  exact ⟨p, hsource, ⟨hnames, ⟨h₁, _, h₂, h₃, h₄⟩, h₅, _, h₆, h₇, h₈⟩, hcalls _ hwalk hkind,
    hsegment, hherd, hagain⟩

end AsyncOrder.Program
