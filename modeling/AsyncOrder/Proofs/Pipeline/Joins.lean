import AsyncOrder.Proofs.Pipeline.Traced
import AsyncOrder.Proofs.Rewriting.Collapsing
import Mathlib

/-!
# Joins of one token

A run that does not fail leaves no list that names a token twice.  It may leave a join of one
token: lists are put in order once more after joins have collapsed, and then joins are not looked
at again.  The joins that are left so are told by the program before joins collapse:

    r.deps o has one token ↔ q.deps o has several, which all give way to a common one
                                                                        (canonicalize_single_joins)
-/

namespace AsyncOrder

open Program Relation

variable {p : Program} {s : Session} {pass : Pass} {options : Options}

/-! ## Runs -/

theorem Session.runAll_append {first rest : List Pass} (h : (runAll first s).failure = none) :
    runAll (first ++ rest) s = runAll rest (runAll first s).session := by
  induction first generalizing s with
  | nil => rfl
  | cons pass first ih =>
    rw [runAll] at h
    rw [List.cons_append, runAll, runAll]
    cases hpass : (s.runPass pass).failure with
    | some f =>
      simp only [hpass] at h
      cases h
    | none =>
      simp only [hpass] at h
      simpa only [hpass] using ih h

/-- No pass before the last changes more than dependency lists. -/
theorem Session.strip_attempt (hpass : pass ≠ .cleanup) :
    (s.attempt pass).session.program.strip false = s.program.strip false := by
  cases pass with
  | build =>
    rw [attempt, build]
    split <;> rfl
  | trace => exact strip_traceAll s.options.forcedMode
  | resolve =>
    rw [attempt, resolve]
    split <;> rfl
  | stitch =>
    rw [attempt, stitch]
    split
    · rfl
    · dsimp only
      split <;> rfl
  | reduce =>
    rw [attempt, reduce]
    split
    · rfl
    · split <;> rfl
  | rewrite =>
    rw [attempt, rewrite]
    split
    · rfl
    · exact strip_rewriteTokens
  | cleanup => exact absurd rfl hpass

theorem Session.strip_runPass (hpass : pass ≠ .cleanup) :
    (s.runPass pass).session.program.strip false = s.program.strip false := by
  have hattempt := strip_attempt (s := s) hpass
  rw [runPass]
  split
  · rfl
  · split
    · rfl
    · dsimp only
      split <;> exact hattempt

theorem Session.strip_runAll {passes : List Pass} (h : ∀ pass ∈ passes, pass ≠ .cleanup) :
    (runAll passes s).session.program.strip false = s.program.strip false := by
  induction passes generalizing s with
  | nil => rfl
  | cons pass passes ih =>
    have hpass := strip_runPass (s := s) (h pass List.mem_cons_self)
    rw [runAll]
    split
    · exact hpass
    · exact (ih fun x hx => h x (List.mem_cons_of_mem _ hx)).trans hpass

theorem Session.session_runAll_singleton :
    (runAll [pass] s).session = (s.runPass pass).session := by
  rw [runAll]
  split
  · rfl
  · rw [runAll]

/-- The last pass cleans up, if it runs. -/
theorem Session.program_runPass_cleanup (h : (runAll [.cleanup] s).failure = none) :
    (s.runPass .cleanup).session.program = s.program.cleanup.1 := by
  rw [runAll] at h
  cases hmissing : s.missing? .cleanup with
  | some a =>
    rw [runPass, hmissing] at h
    cases h
  | none =>
    simp only [runPass, hmissing, attempt, cleanup, done, finish, produce, countRewrite,
      reduceCtorEq, decide_false, Bool.false_and, Bool.false_eq_true, if_false]

/-- A run that does not fail cleans up what the passes before have rewritten, and these change
dependency lists only. -/
theorem run_rewrite (hok : (p.canonicalize options).failure = none) :
    let rewritten := ((Session.start p options).run .rewrite).session.program
    rewritten.strip false = p.strip false ∧
      (p.canonicalize options).session.program = rewritten.cleanup.1 := by
  have hrewrite := run_of_canonicalize .rewrite (by decide) hok
  constructor
  · exact Session.strip_runAll (by decide)
  · have hpasses : Pass.required .cleanup = Pass.required .rewrite ++ [.cleanup] := by decide
    rw [canonicalize, Session.run, hpasses, Session.runAll_append hrewrite] at hok ⊢
    rw [Session.session_runAll_singleton]
    exact Session.program_runPass_cleanup hok

/-! ## Programs that are read -/

/-- The program whose joins collapse: lists are filled from the reduced scopes and name no token
twice, and dead computes are gone. -/
def Program.uncollapsed (p : Program) (options : Options) : Program :=
  ((Session.start p options).run .rewrite).session.program.dedupDeps.1.removeDeadComputes.1

/-- In the end nothing waits on a token twice.  The joins that are left are those that did not wait
on one token when joins collapsed, and those of them wait on one token in the end that waited on
several, all of which give way to a common one. -/
theorem canonicalize_single_joins {source : String} (hsource : readProgram source = .ok p)
    (hok : (p.canonicalize options).failure = none) :
    let q := p.uncollapsed options
    let r := (p.canonicalize options).session.program
    r = q.collapseJoins.1.dedupDeps.1.limitHierarchyDeps.1.removeUnusedParams.1 ∧
      q.WaitsOnce ∧ r.WaitsOnce ∧
      (∀ o, r.isLive o = true ↔
        q.isLive o = true ∧ ¬ (q.kind o = .join ∧ (q.deps o).length = 1)) ∧
      ∀ o, r.isLive o = true → r.kind o = .join → ((r.deps o).length = 1 ↔
        2 ≤ (q.deps o).length ∧
          ∀ v ∈ q.deps o, ∀ w ∈ q.deps o, Join (ReflTransGen q.GivesWay) v w) := by
  have hp := wellFormed_of_readProgram hsource
  obtain ⟨hstrip, hcleanup⟩ := run_rewrite hok
  have hprunes := hp.linked.prunes.rewire (rewires_of_strip hstrip)
  simp only [hcleanup, uncollapsed]
  exact ⟨cleanup_eq _, hprunes.cleanup_deps hp⟩

/-- The last join waits on two joins of the same token. -/
def twinJoins : String := "func @f() \x7b
  %t = join
  %a = join [%t]
  %b = join [%t]
  %j = join [%a, %b]
\x7d
"

theorem passes_twinJoins : passes twinJoins (fun p _ _ =>
    let r := (p.canonicalize .default).session.program
    (p.canonicalize .default).failure = none && r.isLive ⟨3⟩ && r.kind ⟨3⟩ = .join &&
      (r.deps ⟨3⟩).length = 1 && ((p.uncollapsed .default).deps ⟨3⟩).length = 2) = true := by
  decide_cbv

theorem canonicalize_single_joins_twinJoins : ∃ p o, readProgram twinJoins = .ok p ∧
    (p.canonicalize .default).failure = none ∧
    ((p.canonicalize .default).session.program.deps o).length = 1 ∧
    ((p.uncollapsed .default).deps o).length = 2 ∧
    ∀ v ∈ (p.uncollapsed .default).deps o, ∀ w ∈ (p.uncollapsed .default).deps o,
      Join (ReflTransGen (p.uncollapsed .default).GivesWay) v w := by
  obtain ⟨p, t, c, hsource, -, htest⟩ := passes_iff.1 passes_twinJoins
  simp only [Bool.and_eq_true, decide_eq_true_eq] at htest
  obtain ⟨⟨⟨⟨hok, hlive⟩, hkind⟩, hone⟩, htwo⟩ := htest
  obtain ⟨-, -, -, -, hjoins⟩ := canonicalize_single_joins hsource hok
  exact ⟨p, ⟨3⟩, hsource, hok, hone, htwo, ((hjoins ⟨3⟩ hlive hkind).1 hone).2⟩

/-- What waited on two tokens comes to wait on one, and stays a join. -/
theorem not_canonicalize_collapses : ¬ ∀ (source : String) (p : Program) (options : Options),
    readProgram source = .ok p → (p.canonicalize options).failure = none →
      ∀ o, (p.canonicalize options).session.program.isLive o = true →
        ((p.canonicalize options).session.program.deps o).Nodup ∧
          ((p.canonicalize options).session.program.kind o = .join →
            ((p.canonicalize options).session.program.deps o).length ≠ 1) := by
  intro h
  obtain ⟨p, t, c, hsource, -, htest⟩ := passes_iff.1 passes_twinJoins
  simp only [Bool.and_eq_true, decide_eq_true_eq] at htest
  obtain ⟨⟨⟨⟨hok, hlive⟩, hkind⟩, hone⟩, -⟩ := htest
  exact (h twinJoins p .default hsource hok ⟨3⟩ hlive).2 hkind hone

end AsyncOrder
