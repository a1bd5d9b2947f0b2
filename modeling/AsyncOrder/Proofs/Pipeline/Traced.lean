import AsyncOrder.Proofs.Dependence.Threading
import AsyncOrder.Proofs.Pipeline.Passes
import AsyncOrder.Proofs.Pipeline.Reduced

/-!
# Runs with memory tracing

A program that is traced has the scopes it had.  Where idle operations are threaded in order
through the loops around them, all that is waited on is in scope and no pass meets a cycle:

    p.ThreadsAll forced → no run fails with cyclicPrecedence        (run_traced_ne_cyclicPrecedence)

Two nested loops that carry the same token show that this is not always so: the inner loop is
threaded through what makes that token, which stands before the outer loop and comes to wait on
what the outer loop carries.
-/

namespace AsyncOrder

open Program

variable {p : Program} {f : Failure} {options : Options} {t reduced : ScopeTree} {c : Context}

/-! ## Runs -/

/-- What leads to a pass comes first in a run of all passes. -/
theorem required_append (terminal : Pass) (h : terminal ≠ .trace) :
    ∃ rest, Pass.required .cleanup = terminal.required ++ rest := by
  cases terminal
  case trace => exact absurd rfl h
  case build => exact ⟨[.trace, .resolve, .stitch, .reduce, .rewrite, .cleanup], by decide⟩
  case resolve => exact ⟨[.stitch, .reduce, .rewrite, .cleanup], by decide⟩
  case stitch => exact ⟨[.reduce, .rewrite, .cleanup], by decide⟩
  case reduce => exact ⟨[.rewrite, .cleanup], by decide⟩
  case rewrite => exact ⟨[.cleanup], by decide⟩
  case cleanup => exact ⟨[], by decide⟩

/-- The first part of a run that does not fail does not fail. -/
theorem Session.runAll_of_append {passes passes' : List Pass} {s : Session}
    (h : (runAll (passes ++ passes') s).failure = none) : (runAll passes s).failure = none := by
  induction passes generalizing s with
  | nil => rfl
  | cons pass passes ih =>
    rw [List.cons_append, runAll] at h
    rw [runAll]
    cases hpass : (s.runPass pass).failure with
    | some f =>
      simp only [hpass] at h
      cases h
    | none =>
      simp only [hpass] at h
      exact ih h

/-- A run with memory tracing of a program whose traced scopes reduce. -/
theorem canonicalize_of_reduce_traced (htrace : options.traceMemory = true)
    (hregular : Regular ((p.traceAll options.forcedMode).1.resolve c t).tree)
    (hbuild : p.scopeTree = .ok (t, c))
    (hstitch : ((p.traceAll options.forcedMode).1.resolve c t).tree.stitch.failure = none)
    (hreduce : ((p.traceAll options.forcedMode).1.resolve c t).tree.stitch.scopes.reduce =
      .ok reduced) : (p.canonicalize options).failure = none := by
  have hmaps := hregular.reduceWithMaps_eq hreduce
  simp [Program.canonicalize, Session.run, required_cleanup, Session.runAll, Session.runPass,
    Session.missing?, Pass.inputs, Pass.outputs, Session.start, Session.has, Session.attempt,
    Session.build, hbuild, Session.done, Session.finish, Session.produce, htrace, Session.trace,
    Session.resolve, Session.stitch, hstitch, Session.reduce, hmaps, Session.rewrite,
    Session.cleanup, Session.countRewrite]

theorem run_of_canonicalize (terminal : Pass) (h : terminal ≠ .trace)
    (hall : (p.canonicalize options).failure = none) :
    ((Session.start p options).run terminal).failure = none := by
  obtain ⟨rest, hrest⟩ := required_append terminal h
  rw [canonicalize, Session.run, hrest] at hall
  exact Session.runAll_of_append hall

theorem run_of_error (terminal : Pass) (h : terminal ≠ .trace) (hbuild : p.scopeTree = .error f) :
    ((Session.start p options).run terminal).failure = some ⟨.build, f⟩ := by
  obtain ⟨rest, hrest⟩ : ∃ rest, terminal.required = .build :: rest := by
    cases terminal
    case trace => exact absurd rfl h
    all_goals exact ⟨_, rfl⟩
  rw [Session.run, hrest, Session.runAll]
  simp [Session.runPass, Session.missing?, Pass.inputs, Session.attempt, Session.build,
    Session.start, hbuild, Session.failed]

theorem run_trace (htrace : options.traceMemory = true) :
    ((Session.start p options).run .trace).failure = none := by
  have hrequired : Pass.required .trace = [.trace] := by decide
  simp [Session.run, hrequired, Session.runAll, Session.runPass, Session.missing?, Pass.inputs,
    Session.attempt, Session.trace, htrace, Session.start, Session.done]

/-- Where idle operations are threaded in order, tracing makes no cycle. -/
theorem run_traced_ne_cyclicPrecedence (hp : p.WellFormed) (htrace : options.traceMemory = true)
    (hthreads : p.ThreadsAll options.forcedMode) (terminal pass : Pass) (scope : String)
    (vertex : Key) : ((Session.start p options).run terminal).failure ≠
      some ⟨pass, .cyclicPrecedence scope vertex⟩ := by
  by_cases hterminal : terminal = .trace
  · rw [hterminal, run_trace htrace]
    exact (Option.some_ne_none _).symm
  · cases hbuild : p.scopeTree with
    | error f =>
      obtain ⟨o, bad, -, rfl⟩ := foreign_of_buildScope _ hbuild
      rw [run_of_error terminal hterminal hbuild]
      simp
    | ok r =>
      obtain ⟨t, c⟩ := r
      have hstrip := p.strip_traceAll options.forcedMode
      have hbuild' : (p.traceAll options.forcedMode).1.scopeTree = .ok (t, c) :=
        scopeTree_strip.1 (hstrip ▸ scopeTree_strip.2 hbuild)
      have hwell := hp.wellFormed_traceAll hthreads
      have ht := laid_of_scopeTree hwell hbuild'
      obtain ⟨hstitch, reduced, hreduce, -⟩ := ht.reduced_tree hwell
      have hall := canonicalize_of_reduce_traced htrace (ht.regular_resolve hwell) hbuild hstitch
        hreduce
      rw [run_of_canonicalize terminal hterminal hall]
      exact (Option.some_ne_none _).symm

/-! ## Programs that are read -/

/-- After tracing everything that is waited on is in scope just if idle operations are threaded in
order, and then no run meets a cycle. -/
theorem tracing_keeps_scopes {source : String} (forced : Option ConflictMode)
    (hsource : readProgram source = .ok p) :
    ((∀ o v, v ∈ (p.traceAll forced).1.deps o → (p.traceAll forced).1.InScope o v) ↔
      p.ThreadsAll forced) ∧
    (p.ThreadsAll forced → ∀ terminal pass scope vertex,
      ((Session.start p ⟨true, forced⟩).run terminal).failure ≠
        some ⟨pass, .cyclicPrecedence scope vertex⟩) := by
  have hp := wellFormed_of_readProgram hsource
  refine ⟨?_, @run_traced_ne_cyclicPrecedence p ⟨true, forced⟩ hp rfl⟩
  have hscope : ∀ o v, (p.traceAll forced).1.InScope o v ↔ p.InScope o v := fun o v =>
    inScope_iff_of_strip (strip_traceAll forced)
  simp only [hscope]
  exact hp.scoped_traceAll_iff

/-- The inner loop carries on what the outer loop carries. -/
def handedOn : String := "func @f(%n: index) \x7b
  %x = join
  %l = for %i = %n to %n step %n iter(%k = %x) \x7b
    %m = for %j = %n to %n step %n iter(%q = %k) \x7b
      %t = join
      yield %t
    \x7d
    yield %m
  \x7d
\x7d
"

theorem tracing_keeps_scopes_handedOn : ∃ p, readProgram handedOn = .ok p ∧
    (∃ o, p.Idle none o ∧ (p.threads o (p.ancestors o)).length = 2) ∧
    (∀ o v, v ∈ (p.traceAll none).1.deps o → (p.traceAll none).1.InScope o v) ∧
    ∀ terminal pass scope vertex, ((Session.start p ⟨true, none⟩).run terminal).failure ≠
      some ⟨pass, .cyclicPrecedence scope vertex⟩ := by
  obtain ⟨p, t, c, hsource, -, htest⟩ := passes_iff.1
    (show passes handedOn (fun p _ _ =>
      (p.sinks.all fun sink => (p.threads sink (p.ancestors sink)).all fun e =>
        p.Threads e.1 e.2) &&
      p.sinks = [⟨0⟩] ++ ⟨1⟩ :: [] &&
      (p.growing.traced none [⟨0⟩]).program.deps ⟨1⟩ = [] && p.sinkTokens none ⟨1⟩ = [] &&
      (p.threads ⟨1⟩ (p.ancestors ⟨1⟩)).length = 2) = true by decide +kernel)
  simp only [Bool.and_eq_true, decide_eq_true_eq, List.all_eq_true] at htest
  obtain ⟨⟨⟨⟨hall, hsinks⟩, hdeps⟩, htokens⟩, hlength⟩ := htest
  have hthreads : p.ThreadsAll none := by
    rintro sink ⟨pre, post, h, -⟩
    exact hall sink (h ▸ List.mem_append_right _ List.mem_cons_self)
  obtain ⟨hscope, hrun⟩ := tracing_keeps_scopes none hsource
  exact ⟨p, hsource, ⟨⟨1⟩, ⟨_, _, hsinks, hdeps, htokens⟩, hlength⟩, hscope.2 hthreads,
    hrun hthreads⟩

/-- Both loops carry the same token. -/
def sharedToken : String := "func @f(%n: index) \x7b
  %x = join
  %l = for %i = %n to %n step %n iter(%k = %x) \x7b
    %m = for %j = %n to %n step %n iter(%q = %x) \x7b
      %t = join
      yield %q
    \x7d
    yield %m
  \x7d
\x7d
"

/-- The first join comes to wait on what the outer loop carries, and so on itself. -/
theorem not_tracing_keeps_scopes : ∃ p, readProgram sharedToken = .ok p ∧
    ¬ (∀ o v, v ∈ (p.traceAll none).1.deps o → (p.traceAll none).1.InScope o v) ∧
    ((Session.start p ⟨true, none⟩).run .reduce).failure =
      some ⟨.reduce, .cyclicPrecedence "host" ⟨.controlLoop, 0⟩⟩ := by
  obtain ⟨p, t, c, hsource, -, htest⟩ := passes_iff.1
    (show passes sharedToken (fun p _ _ =>
      p.sinks = [⟨0⟩] ++ ⟨1⟩ :: [] &&
      (p.growing.traced none [⟨0⟩]).program.deps ⟨1⟩ = [] && p.sinkTokens none ⟨1⟩ = [] &&
      ((p.threads ⟨1⟩ (p.ancestors ⟨1⟩)).any fun e => !p.Threads e.1 e.2) &&
      ((Session.start p ⟨true, none⟩).run .reduce).failure =
        some ⟨.reduce, .cyclicPrecedence "host" ⟨.controlLoop, 0⟩⟩) = true by decide +kernel)
  simp only [Bool.and_eq_true, decide_eq_true_eq, List.any_eq_true, Bool.not_eq_true',
    decide_eq_false_iff_not] at htest
  obtain ⟨⟨⟨⟨hsinks, hdeps⟩, htokens⟩, e, he, hnot⟩, hrun⟩ := htest
  refine ⟨p, hsource, fun hscope => ?_, hrun⟩
  have hp := wellFormed_of_readProgram hsource
  have hthreads : p.ThreadsAll none := hp.scoped_traceAll_iff.1 fun o v hv =>
    (inScope_iff_of_strip (strip_traceAll none)).1 (hscope o v hv)
  exact hnot (hthreads ⟨1⟩ ⟨_, _, hsinks, hdeps, htokens⟩ e he)

end AsyncOrder
