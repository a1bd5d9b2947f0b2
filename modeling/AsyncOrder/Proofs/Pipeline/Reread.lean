import AsyncOrder.Proofs.Pipeline.Scoped
import AsyncOrder.Proofs.Rewriting.Recalling
import Mathlib

/-!
# Canonical programs and their text

A canonical program is laid out as programs that are read are, so its text is read as a copy of it
as long as names mean what they stand for.  That is not always so: when a join gives way to a token
whose name another value has where the join was used, the text says something else.
-/

namespace AsyncOrder

open Program

variable {p : Program} {options : Options} {t : ScopeTree} {c : Context} {source : String}

/-- The text of a canonical program is read as a copy of it just if names mean what they stand
for. -/
theorem reread_canonical (hsource : readProgram source = .ok p) (hapart : p.namedApart = true)
    (hbuild : p.scopeTree = .ok (t, c)) (htrace : options.traceMemory = false) :
    let q := (p.canonicalize options).session.program
    (p.canonicalize options).failure = none ∧
      ((∀ o, q.isLive o = true → ∀ v ∈ q.used o, q.Calls o v) ↔
        ∃ r, readProgram q.text = .ok r ∧ q.Mirrors q.history q.history q.funcs r) := by
  have hp := wellFormed_of_readProgram hsource
  obtain ⟨hok, hscoped⟩ := scoped_canonicalize hp hbuild htrace
  have htidy := (readable_of_readProgram hsource hapart).toTidy.prune hp hscoped
  have hspell := (spelt_of_readProgram hsource).spellable.prune hscoped.prunes
  exact ⟨hok, hscoped.prunes.readable_iff hp htidy hspell⟩

/-- The first join of one token gives way, and names mean what they did. -/
def plainNames : String := "func @f() \x7b
  %t = join
  %a = join [%t]
  %b = join
  %j = join [%a, %b]
\x7d
"

theorem reread_canonical_plainNames : ∃ p, readProgram plainNames = .ok p ∧
    let q := (p.canonicalize .default).session.program
    q.isLive ⟨1⟩ = false ∧
      ∃ r, readProgram q.text = .ok r ∧ q.Mirrors q.history q.history q.funcs r := by
  obtain ⟨p, t, c, hsource, hbuild, hapart⟩ := passes_iff.1
    (show passes plainNames (fun p _ _ => p.namedApart) = true by decide +kernel)
  obtain ⟨p', hsource', htest⟩ := accepts_iff.1
    (show accepts plainNames (fun p =>
      let q := (p.canonicalize .default).session.program
      !q.isLive ⟨1⟩ && (List.range q.ops.size).all fun i => (q.used ⟨i⟩).all fun v =>
        latest? (fun v => some (q.valueName v)) (q.valueName v) (q.before ⟨i⟩) = some v) = true by
      decide_cbv)
  obtain rfl := Except.ok.inj (hsource.symm.trans hsource')
  simp only [Bool.and_eq_true, Bool.not_eq_true', List.all_eq_true, List.mem_range,
    decide_eq_true_eq] at htest
  obtain ⟨hgone, hcalls⟩ := htest
  refine ⟨p, hsource, hgone, (reread_canonical hsource hapart hbuild rfl).2.1 ?_⟩
  exact fun o ho v hv => .inside (hcalls o.index (lt_of_isLive ho) v hv)

/-- The loop variable has the name of the token that the second join waits on. -/
def sameName : String := "func @f(%n: index) \x7b
  %y = join
  %x = join [%y]
  for %y = %n to %n step %n \x7b
    %u = join
    %z = join [%x, %u]
    yield
  \x7d
\x7d
"

set_option maxRecDepth 2000 in
/-- The last join comes to wait on the first one, but the name of that means the loop variable. -/
theorem not_reread_canonical : ¬ ∀ (source : String) (p : Program) (t : ScopeTree) (c : Context)
    (options : Options), readProgram source = .ok p → p.namedApart = true →
    p.scopeTree = .ok (t, c) → options.traceMemory = false →
    let q := (p.canonicalize options).session.program
    ∃ r, readProgram q.text = .ok r ∧ q.Mirrors q.history q.history q.funcs r := by
  intro h
  obtain ⟨p, t, c, hsource, hbuild, hapart⟩ := passes_iff.1
    (show passes sameName (fun p _ _ => p.namedApart) = true by decide +kernel)
  obtain ⟨p', hsource', htest⟩ := accepts_iff.1
    (show accepts sameName (fun p =>
      let q := (p.canonicalize .default).session.program
      q.isLive ⟨3⟩ && q.deps ⟨3⟩ = [⟨1⟩, ⟨4⟩] &&
        latest? (fun v => some (q.valueName v)) (q.valueName ⟨1⟩) (q.before ⟨3⟩) = some ⟨3⟩) = true
      by decide_cbv)
  obtain rfl := Except.ok.inj (hsource.symm.trans hsource')
  simp only [Bool.and_eq_true, decide_eq_true_eq] at htest
  obtain ⟨⟨hlive, hdeps⟩, hlatest⟩ := htest
  have hp := wellFormed_of_readProgram hsource
  obtain ⟨-, hscoped⟩ := scoped_canonicalize hp hbuild
    (show Options.default.traceMemory = false from rfl)
  have htidy := (readable_of_readProgram hsource hapart).toTidy.prune hp hscoped
  have hspell := (spelt_of_readProgram hsource).spellable.prune hscoped.prunes
  have hcalls := (hscoped.prunes.readable_iff hp htidy hspell).2
    (h sameName p t c .default hsource hapart hbuild rfl) ⟨3⟩ hlive ⟨1⟩
    (List.mem_append_right _ (show (⟨1⟩ : ValueId) ∈ Program.deps _ ⟨3⟩ from
      hdeps ▸ List.mem_cons_self))
  rw [Calls] at hcalls
  cases hcalls with
  | inside hv => exact absurd (hlatest.symm.trans hv) (by decide)
  | outer hnone => exact absurd (hlatest.symm.trans hnone) (by decide)
  | beyond _ hfalse => exact hfalse

end AsyncOrder
