import AsyncOrder.Proofs.Dependence.Control
import AsyncOrder.Proofs.Pipeline.Passes
import AsyncOrder.Proofs.Pipeline.RoundTrip
import AsyncOrder.Proofs.Rewriting.Cleanup
import AsyncOrder.Proofs.Rewriting.Sweeping
import Mathlib.Data.List.Induction

/-!
# Canonicalizing and scopes

What live operations use is in view when a program is read, when its dependency lists have been
filled from the reduced scopes, and after every pass of cleaning up:

    q ∈ stages of (p.rewriteTokens reduced).1 → q.WellScoped              (canonicalizing_keeps_scopes)

Each pass keeps a program scoped for `p`: it drops dependencies, puts what the producer of a token
waits on in place of the token, or takes away what is not used.
-/

namespace AsyncOrder

open Program Relation

variable {p q : Program} {d o z : OpId} {v token : ValueId} {b : BlockId} {tokens : List ValueId}

/-! ## The stages -/

/-- What cleaning up does, in this order. -/
def Program.cleanupPasses : List (Program → Program × Nat) :=
  [dedupDeps, removeDeadComputes, collapseJoins, dedupDeps, limitHierarchyDeps, removeUnusedParams]

/-- The programs that cleaning up goes through. -/
def Program.cleanupStages (p : Program) : List Program :=
  cleanupPasses.scanl (fun p pass => (pass p).1) p

theorem Program.getLast?_cleanupStages : p.cleanupStages.getLast? = some p.cleanup.1 := by
  simp only [cleanupStages, cleanupPasses, List.scanl_cons, List.scanl_nil, cleanup]
  rfl

namespace Program.Scoped

/-! ## One operation after the other -/

theorem changeEach {change : Program → OpId → Program × Nat}
    (hchange : ∀ q o, p.Scoped q → p.Scoped (change q o).1) (h : p.Scoped q) (ops : List OpId) :
    p.Scoped (q.changeEach ops change).1 := by
  rw [changeEach_eq]
  induction ops generalizing q with
  | nil => exact h
  | cons o ops ih => exact ih (hchange q o h)

section

variable (hp : p.WellFormed) (h : p.Scoped q)
include hp h

theorem dedupDepsOf : p.Scoped (q.dedupDepsOf o).1 := by
  refine h.of_strip hp.linked ops_strip_setDeps fun z hz v hv => h.waits hz ?_
  rw [Program.dedupDepsOf, deps_setDeps] at hv
  split at hv
  · next hzo =>
    rw [hzo.1]
    exact List.mem_eraseDups.1 hv
  · exact hv

theorem dedupDeps : p.Scoped q.dedupDeps.1 :=
  h.changeEach (fun _ _ h => h.dedupDepsOf hp) _

/-! ## Joins of one token -/

/-- Who uses the result of a join sees the token that the join waits on. -/
theorem collapseJoin : p.Scoped (q.collapseJoin o).1 := by
  rw [Program.collapseJoin]
  split
  · next hjoin =>
    rw [Bool.and_eq_true, decide_eq_true_eq] at hjoin
    obtain ⟨ho, hkind⟩ := hjoin
    split
    · next input result results hdeps hres =>
      obtain ⟨rfl, hresultType⟩ := (h.laidOut o ho).results_join hkind hres
      have hresult : result ∈ (q.op o).results := hres ▸ List.mem_cons_self
      have hinput : input ∈ q.used o :=
        List.mem_append_right _ (show input ∈ q.deps o from hdeps ▸ List.mem_cons_self)
      have hrewires := rewires_replaceUses (q := q) result input
      have hused : ∀ z, q.isLive z = true → ∀ v ∈ (q.replaceUses result input).used z,
          ∃ w ∈ q.used z, v = if w = result then input else w := by
        intro z hz v hv
        rw [Program.used, op_replaceUses result input hz, ← List.map_append] at hv
        obtain ⟨w, hw, rfl⟩ := List.mem_map.1 hv
        exact ⟨w, hw, rfl⟩
      have hinputType : q.valueType input = .token :=
        (h.waits ho (show input ∈ q.deps o from hdeps ▸ List.mem_cons_self)).2.1
      have htypes := types_replaceUses (hinputType.trans hresultType.symm)
      have hdepsTypes : ∀ z, q.isLive z = true → ∀ v ∈ (q.replaceUses result input).deps z,
          (q.kind z).isAsync = true ∧ q.valueType v = .token := by
        intro z hz v hv
        obtain ⟨w, hw, rfl | ⟨rfl, rfl⟩⟩ := mem_deps_replaceUses hv
        · exact (h.laidOut z hz).dep hw
        · exact ⟨((h.laidOut z hz).dep hw).1, hinputType⟩
      have hscoped := h.rewire hp.linked hrewires htypes hdepsTypes fun z hz v hv => by
        obtain ⟨w, hw, rfl⟩ := hused z hz v hv
        have hview := h.wellScoped z hz w hw
        split
        · next hwr =>
          refine h.inView_trans hp.linked hz hview (d := o) ?_ hinput
          rw [h.prunes.definingOp?, hwr]
          exact (hp.linked.definingOp?_of_result (h.prunes.results o ▸ hresult)).1
        · exact hview
      have hlive := (hrewires.isLive o).trans ho
      refine hscoped.eraseOp hp hlive (by rw [hrewires.kind, hkind]; rfl)
        fun z hz v hv hvz => ?_
      rw [hrewires.results, hres, List.mem_singleton] at hv
      obtain ⟨w, -, hvw⟩ := hused z (hrewires.isLive z ▸ hz) v hvz
      split at hvw
      · -- a join does not wait on itself
        have hview := (h.prunes.inView_iff hp.linked ho).1 (h.wellScoped o ho input hinput)
        refine hp.linked.not_visible_self (h.prunes.lt ho) ?_ hview.1
        rwa [← h.prunes.results, ← hvw, hv]
      · next hwr => exact hwr (hvw.symm.trans hv)
    · exact h
  · exact h

theorem collapseJoins : p.Scoped q.collapseJoins.1 :=
  h.changeEach (fun _ _ h => h.collapseJoin hp) _

/-! ## Dependencies of hierarchy calls -/

omit hp h in
theorem addDeps (tokens : List ValueId) (q : Program) :
    let r := tokens.foldl (fun q token => q.addDep o token) q
    r.strip false = q.strip false ∧
      ∀ z, ∀ v ∈ r.deps z, v ∈ q.deps z ∨ z = o ∧ v ∈ tokens := by
  induction tokens generalizing q with
  | nil => exact ⟨rfl, fun _ _ => Or.inl⟩
  | cons token tokens ih =>
    obtain ⟨hstrip, hdeps⟩ := ih (q.addDep o token)
    refine ⟨hstrip.trans strip_addDep, fun z v hv => ?_⟩
    rcases hdeps z v hv with hv | ⟨hz, hv⟩
    · refine (mem_deps_addDep.1 hv).imp_right fun ⟨hz, _, hv⟩ => ⟨hz, ?_⟩
      exact List.mem_cons.2 (Or.inl hv)
    · exact Or.inr ⟨hz, List.mem_cons_of_mem _ hv⟩

/-- What stands behind the dependencies of an operation are tokens in view. -/
theorem waits_controlTokens (ho : q.isLive o = true) (hv : v ∈ q.controlTokens o) :
    q.valueType v = .token ∧ q.InView o v := by
  obtain ⟨s, hs, hpath⟩ := visit_sound (List.mem_filter.1 hv).1
  clear hv
  induction hpath with
  | refl => exact (h.waits ho hs).2
  | @tail v w _ hvw ih =>
    obtain ⟨-, d, hd, -, hw⟩ := leads_waitsBehind.1 hvw
    refine ⟨?_, h.inView_trans hp.linked ho ih.2 hd (List.mem_append_right _ hw)⟩
    exact (h.waits (h.prunes.isLive_of_inView hp.linked ih.2 hd) hw).2.1

omit hp h in
/-- Only calls wait on control. -/
theorem isAsync_of_waitsOnControl {k : OpKind} (h : waitsOnControl k = true) : k.isAsync = true := by
  cases k <;> first | rfl | cases h

theorem limitDepsOf : p.Scoped (q.limitDepsOf o).1 := by
  rw [Program.limitDepsOf]
  split
  · next hcontrol =>
    obtain ⟨hstrip, hdeps⟩ := addDeps (o := o) (q.controlTokens o) q
    refine h.of_strip hp.linked (ops_strip_setDeps.trans hstrip) fun z hz v hv => ?_
    have hmem : v ∈ ((q.controlTokens o).foldl (fun q token => q.addDep o token) q).deps z := by
      rw [deps_setDeps] at hv
      split at hv
      · next hzo =>
        rw [hzo.1]
        exact List.mem_of_mem_filter hv
      · exact hv
    rcases hdeps z v hmem with hv | ⟨rfl, hv⟩
    · exact h.waits hz hv
    · exact ⟨isAsync_of_waitsOnControl hcontrol, h.waits_controlTokens hp hz hv⟩
  · exact h

theorem limitHierarchyDeps : p.Scoped q.limitHierarchyDeps.1 :=
  h.changeEach (fun _ _ h => h.limitDepsOf hp) _

/-! ## Unused parameters -/

omit h in
/-- The last pair comes first, so what is left to do is not moved. -/
theorem removeParams {level : Level} {ids : Nat} (pairs : List (ValueId × ValueId))
    (h : p.Scoped q) (hkind : q.kind o = .hierarchy level ids) (hbody : q.body? o = some b)
    (hpairs : ∀ j < pairs.length, (q.hierarchyPairs o)[j]? = pairs[j]?) :
    p.Scoped (pairs.zipIdx.reverse.foldl
      (fun p e => if p.isUsed e.1.2 then p else p.removeParam o e.2) q) := by
  induction pairs using List.reverseRecOn generalizing q with
  | nil => exact h
  | append_singleton pairs e ih =>
    have hbefore : ∀ j < pairs.length, (q.hierarchyPairs o)[j]? = pairs[j]? := fun j hj => by
      rw [hpairs j (by simp; omega), List.getElem?_append_left hj]
    rw [List.zipIdx_append, List.reverse_append]
    simp only [List.zipIdx_singleton, List.reverse_singleton, List.singleton_append,
      List.foldl_cons, Nat.zero_add]
    split
    · exact ih h hkind hbody hbefore
    · next hunused =>
      have hpair : (q.hierarchyPairs o)[pairs.length]? = some e := by
        rw [hpairs _ (by simp), List.getElem?_append_right (Nat.le_refl _)]
        simp
      refine ih ?_ ((kind_removeParam hkind hbody).trans hkind)
        ((body?_removeParam hkind hbody).trans hbody) fun j hj => ?_
      · refine h.removeParam hkind hbody hp hpair fun z hz hv => hunused ?_
        exact isUsed_iff.2 ⟨z, (h.prunes.mem_walk hp).2 hz, hv⟩
      · rw [getElem?_hierarchyPairs_removeParam hkind hbody hj]
        exact hbefore j hj

theorem removeUnusedParamsOf : p.Scoped (q.removeUnusedParamsOf o).1 := by
  rw [removeUnusedParamsOf_eq]
  by_cases hpairs : q.hierarchyPairs o = []
  · rw [hpairs]
    exact h
  · rw [hierarchyPairs] at hpairs
    split at hpairs
    · next level ids body hkind hbody => exact removeParams hp _ h hkind hbody fun _ _ => rfl
    · exact absurd rfl hpairs

theorem removeUnusedParams : p.Scoped q.removeUnusedParams.1 :=
  h.changeEach (fun _ _ h => h.removeUnusedParamsOf hp) _

/-! ## All passes -/

theorem cleanupPasses {pass : Program → Program × Nat} (hpass : pass ∈ Program.cleanupPasses) :
    p.Scoped (pass q).1 := by
  simp only [Program.cleanupPasses, List.mem_cons, List.not_mem_nil, or_false] at hpass
  rcases hpass with rfl | rfl | rfl | rfl | rfl | rfl
  · exact h.dedupDeps hp
  · exact h.removeDeadComputes hp
  · exact h.collapseJoins hp
  · exact h.dedupDeps hp
  · exact h.limitHierarchyDeps hp
  · exact h.removeUnusedParams hp

end

theorem cleanupStages (hp : p.WellFormed) (h : p.Scoped q) :
    ∀ r ∈ q.cleanupStages, p.Scoped r := by
  have key : ∀ passes : List (Program → Program × Nat),
      (∀ pass ∈ passes, pass ∈ Program.cleanupPasses) → ∀ q, p.Scoped q →
        ∀ r ∈ passes.scanl (fun p pass => (pass p).1) q, p.Scoped r := by
    intro passes
    induction passes with
    | nil =>
      intro _ q h r hr
      rwa [List.mem_singleton.1 hr]
    | cons pass passes ih =>
      intro hpasses q h r hr
      rw [List.scanl_cons] at hr
      rcases List.mem_cons.1 hr with rfl | hr
      · exact h
      · exact ih (fun x hx => hpasses x (List.mem_cons_of_mem _ hx)) _
          (h.cleanupPasses hp (hpasses pass List.mem_cons_self)) r hr
  exact key _ (fun _ h => h) q h

end Program.Scoped

/-! ## From the text on -/

theorem Program.WellFormed.scoped (hp : p.WellFormed) : p.Scoped p := by
  refine ⟨hp.linked.prunes, fun o ho v hv => ?_, fun o ho => hp.laidOut o (lt_of_isLive ho)⟩
  have hvisible := hp.visible o (lt_of_isLive ho) v hv
  refine (hp.linked.prunes.inView_iff hp.linked ho).2 ⟨hvisible, ?_⟩
  obtain ⟨a, -, hv | ⟨z, hz, hv⟩⟩ := visible_iff.1 hvisible
  · exact Or.inl ⟨_, hv⟩
  · exact Or.inr ⟨z, hp.linked.isLive (hp.linked.lt_of_isBefore hz).1, hv⟩

/-- What a run without memory tracing gives is scoped for what it began with. -/
theorem scoped_canonicalize {t : ScopeTree} {c : Context} {options : Options}
    (hp : p.WellFormed) (hbuild : p.scopeTree = .ok (t, c))
    (htrace : options.traceMemory = false) : (p.canonicalize options).failure = none ∧
      p.Scoped (p.canonicalize options).session.program := by
  have ht := laid_of_scopeTree hp hbuild
  obtain ⟨hstitch, reduced, hreduce, hget⟩ := ht.reduced_tree hp
  obtain ⟨hok, hprogram⟩ := canonicalize_of_reduce hp htrace hbuild hstitch hreduce
  have hq := (ht.wellFormed_rewriteTokens hp hget).scoped
  have hscoped : p.Scoped (p.rewriteTokens reduced).1 :=
    ⟨hp.linked.prunes.rewire (rewires_of_strip strip_rewriteTokens), hq.wellScoped, hq.laidOut⟩
  refine ⟨hok, hprogram ▸ hscoped.cleanupStages hp _ ?_⟩
  exact List.mem_of_getLast? getLast?_cleanupStages

/-- Canonicalizing keeps what is used in view. -/
theorem canonicalizing_keeps_scopes {source : String} (hsource : readProgram source = .ok p) :
    p.WellScoped ∧ ∀ t c, p.scopeTree = .ok (t, c) →
      ∃ reduced, (p.resolve c t).tree.stitch.scopes.reduce = .ok reduced ∧
        let q := (p.rewriteTokens reduced).1
        q.cleanupStages.getLast? = some q.cleanup.1 ∧ ∀ r ∈ q.cleanupStages, r.WellScoped := by
  have hp := wellFormed_of_readProgram hsource
  refine ⟨hp.scoped.wellScoped, fun t c hbuild => ?_⟩
  have ht := laid_of_scopeTree hp hbuild
  obtain ⟨-, reduced, hreduce, hget⟩ := ht.reduced_tree hp
  have hq := ht.wellFormed_rewriteTokens hp hget
  exact ⟨reduced, hreduce, getLast?_cleanupStages,
    fun r hr => (hq.scoped.cleanupStages hq r hr).wellScoped⟩

/-- The compute is dead, the join is left with one token, and `%q` is not used. -/
def everyPass : String := "func @f(%a: memref<1, L2>, %b: memref<1, L2>) \x7b
  %x = transfer %a <- %b
  %t, %v = compute [%x] \x7b
    %c = const 1
    yield %c
  \x7d
  %j = join [%t]
  %h = segment [%j] args(%p = %a, %q = %b) \x7b
    %y = transfer %p <- %p
    end
  \x7d
\x7d
"

theorem canonicalizing_keeps_scopes_everyPass : ∃ p t c reduced, readProgram everyPass = .ok p ∧
    p.WellScoped ∧ p.deadComputes p.useMap = [⟨3⟩] ∧ p.scopeTree = .ok (t, c) ∧
    (p.resolve c t).tree.stitch.scopes.reduce = .ok reduced ∧
    ∀ r ∈ (p.rewriteTokens reduced).1.cleanupStages, r.WellScoped := by
  obtain ⟨p, t, c, hsource, hbuild, htest⟩ := passes_iff.1
    (show passes everyPass (fun p _ _ => p.deadComputes p.useMap = [⟨3⟩]) = true by decide +kernel)
  obtain ⟨hscoped, hstages⟩ := canonicalizing_keeps_scopes hsource
  obtain ⟨reduced, hreduce, -, hall⟩ := hstages t c hbuild
  exact ⟨p, t, c, reduced, hsource, hscoped, of_decide_eq_true htest, hbuild, hreduce, hall⟩

end AsyncOrder
