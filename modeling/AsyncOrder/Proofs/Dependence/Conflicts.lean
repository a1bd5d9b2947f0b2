import AsyncOrder.Proofs.Dependence.Hazards
import AsyncOrder.Proofs.Dependence.Settling

/-!
# Tracing one operation

Tracing `s` in one mode appends to its list, once each, the completion tokens of what stands before
`s` in its block and conflicts with one of its accesses, itself or by what lies in it:

    (p.trace s m).program = p.setDeps s (p.deps s ++ more)                          (trace_exact)
    v ∈ more ↔ v ∉ p.deps s ∧ ∃ a, p.completionToken? a = some v ∧
      p.ConflictsBefore m (reads and writes of s) a s

The uses of a buffer may be looked up while the list grows, or all before: what is found does not
depend on dependency lists (`traceUses_eq`).
-/

namespace AsyncOrder

open Program Relation

variable {p q : Program} {g : Growing} {mode : ConflictMode} {refs : List PartialRef}
variable {a s u : OpId} {i : Nat} {v token : ValueId} {r : PartialRef}

/-! ## Waiting on several tokens -/

namespace Program

/-- The tokens that a list lacks, each once. -/
def missing (p : Program) (s : OpId) (tokens : List ValueId) : List ValueId :=
  (tokens.filter (p.lacksDep s)).eraseDups

theorem mem_missing {tokens : List ValueId} :
    v ∈ p.missing s tokens ↔ v ∈ tokens ∧ v ∉ p.deps s := by
  simp [missing, lacksDep]

theorem missing_cons_of_mem {tokens : List ValueId} (h : token ∈ p.deps s) :
    p.missing s (token :: tokens) = p.missing s tokens := by
  rw [missing, List.filter_cons_of_neg (by simp [lacksDep, h]), missing]

theorem missing_cons_of_not_mem {tokens : List ValueId} (h : token ∉ p.deps s)
    (hs : s.index < p.ops.size) : p.missing s (token :: tokens) =
      token :: (p.setDeps s (p.deps s ++ [token])).missing s tokens := by
  have hlacks : ∀ v, (p.setDeps s (p.deps s ++ [token])).lacksDep s v =
      (p.lacksDep s v && !v == token) := by
    intro v
    rw [lacksDep, lacksDep, deps_setDeps, if_pos ⟨rfl, hs⟩]
    simp [not_or, beq_eq_decide]
  rw [missing, List.filter_cons_of_pos (by simp [lacksDep, h]), List.eraseDups_cons,
    List.filter_filter, missing]
  congr 3
  funext v
  rw [hlacks, Bool.and_comm]

end Program

/-- The missing tokens are appended in their order, and counted. -/
theorem Growing.waitAll_missing (tokens : List ValueId) (hs : s.index < g.program.ops.size) :
    g.waitAll s tokens = ⟨g.program.setDeps s (g.program.deps s ++ g.program.missing s tokens),
      g.added + (g.program.missing s tokens).length⟩ := by
  induction tokens generalizing g with
  | nil =>
    have hnone : g.program.missing s [] = [] := rfl
    rw [hnone, List.append_nil, setDeps_deps]
    rfl
  | cons token tokens ih =>
    have hcons : g.waitAll s (token :: tokens) = (g.wait s token).waitAll s tokens := rfl
    rw [hcons, Growing.wait]
    by_cases hmem : token ∈ g.program.deps s
    · rw [if_neg (by simp [lacksDep, hmem]), ih hs, missing_cons_of_mem hmem]
    · rw [if_pos (by simp [lacksDep, hmem]), addDep, if_neg hmem, ih (by simpa using hs),
        missing_cons_of_not_mem hmem hs]
      simp only [deps_setDeps, hs, and_self, if_true, setDeps_setDeps, List.append_assoc,
        List.singleton_append, List.length_cons]
      rw [Nat.add_assoc, Nat.add_comm 1]

/-! ## Tokens of conflicts -/

namespace Program

/-- `a` stands before `s` in its block, and it or what lies in it conflicts with one of `refs`. -/
def ConflictsBefore (p : Program) (mode : ConflictMode) (refs : List PartialRef) (a s : OpId) :
    Prop :=
  p.isBefore a s = true ∧ ∃ u i, (u = a ∨ a ∈ p.ancestors u) ∧
    ∃ r ∈ refs, p.ConflictsAt mode s u i r

theorem WellFormed.mem_conflictTokens_iff (hp : p.WellFormed) :
    v ∈ p.conflictTokens s mode refs ↔
      ∃ a, p.completionToken? a = some v ∧ p.ConflictsBefore mode refs a s := by
  constructor
  · intro hv
    obtain ⟨u, hu, hwait⟩ := List.mem_filterMap.1 hv
    obtain ⟨r, hr, hu⟩ := List.mem_flatMap.1 hu
    obtain ⟨-, i, hconflict⟩ := mem_conflicts.1 hu
    obtain ⟨a, ha, hbefore, htoken⟩ := of_firstWaitToken? hwait
    exact ⟨a, htoken, hbefore, u, i, (List.mem_cons.1 ha).imp_left Eq.symm, r, hr, hconflict⟩
  · rintro ⟨a, htoken, hbefore, u, i, hau, r, hr, hconflict⟩
    have hu := lt_of_operand hconflict.operand
    have hwithin := (hp.linked.around_iff hu).1 (hau.imp_left Eq.symm)
    exact hp.mem_conflictTokens hbefore htoken hwithin hconflict.operand hr rfl hconflict.admits
      hconflict.overlaps

end Program

/-! ## Use by use -/

/-- The operation of a use, if it conflicts with `r`. -/
def Program.conflictAt? (p : Program) (s : OpId) (mode : ConflictMode) (r : PartialRef)
    (u : OpId × Nat) : Option OpId :=
  if u.1 = s || s ∈ p.ancestors u.1 then none
  else if mode.admits (p.operandRole u.1 u.2) && r.overlaps (p.operandRef u.1 u.2 r.base) then
    some u.1
  else none

/-- `s` waits on the use of a buffer as operand `u.2` of `u.1`, if it conflicts with `r` by what the
program is now. -/
def Growing.traceUse (g : Growing) (s : OpId) (mode : ConflictMode) (r : PartialRef)
    (u : OpId × Nat) : Growing :=
  let p := g.program
  if u.1 = s || s ∈ p.ancestors u.1 then g
  else if mode.admits (p.operandRole u.1 u.2) && r.overlaps (p.operandRef u.1 u.2 r.base) then
    g.waitAll s (p.waitToken? u.1 s).toList
  else g

/-- Reference by reference, each with the uses that its buffer has by then. -/
def Growing.traceUses (g : Growing) (s : OpId) (mode : ConflictMode) (refs : List PartialRef) :
    Growing :=
  refs.foldl (fun g r =>
    (g.program.operandUses r.base).foldl (fun g u => g.traceUse s mode r u) g) g

namespace Growing

theorem waitAll_append (vs ws : List ValueId) :
    g.waitAll s (vs ++ ws) = (g.waitAll s vs).waitAll s ws := List.foldl_append

theorem strip_waitAll (tokens : List ValueId) :
    (g.waitAll s tokens).program.strip false = g.program.strip false := by
  rw [waitAll_eq, strip_waitEach]

theorem traceUse_eq (h : g.program.strip false = p.strip false) (u : OpId × Nat) :
    g.traceUse s mode r u =
      g.waitAll s ((p.conflictAt? s mode r u).bind (p.waitToken? · s)).toList := by
  rw [traceUse, ancestors_eq_of_strip h,
    eq_of_strip (f := fun p => p.operandRole u.1 u.2) (fun _ => operandRole_strip _) h,
    eq_of_strip (f := fun p => p.operandRef u.1 u.2 r.base) (fun _ => operandRef_strip _) h,
    eq_of_strip (f := fun p => p.waitToken? u.1 s) (fun _ => waitToken?_strip) h, conflictAt?]
  split
  · rfl
  · split <;> rfl

theorem foldl_traceUse (h : g.program.strip false = p.strip false) (us : List (OpId × Nat)) :
    us.foldl (fun g u => g.traceUse s mode r u) g =
      g.waitAll s ((us.filterMap (p.conflictAt? s mode r)).filterMap (p.waitToken? · s)) := by
  rw [List.filterMap_filterMap]
  induction us generalizing g with
  | nil => rfl
  | cons u us ih =>
    have hfirst : g.traceUse s mode r u =
        g.waitAll s ((p.conflictAt? s mode r u).bind (p.waitToken? · s)).toList := traceUse_eq h u
    have hstrip : (g.traceUse s mode r u).program.strip false = p.strip false := by
      rw [hfirst, strip_waitAll, h]
    rw [List.foldl_cons, ih hstrip, hfirst, ← waitAll_append, List.filterMap_cons]
    cases (p.conflictAt? s mode r u).bind (p.waitToken? · s) <;> rfl

/-- What is found while the list grows was to be found before. -/
theorem traceUses_eq (h : g.program.strip false = p.strip false) (refs : List PartialRef) :
    g.traceUses s mode refs = g.waitAll s (p.conflictTokens s mode refs) := by
  induction refs generalizing g with
  | nil => rfl
  | cons r refs ih =>
    have hfirst : (p.operandUses r.base).foldl (fun g u => g.traceUse s mode r u) g =
        g.waitAll s (((p.operandUses r.base).filterMap (p.conflictAt? s mode r)).filterMap
          (p.waitToken? · s)) := foldl_traceUse h _
    have hstrip : ((p.operandUses r.base).foldl (fun g u => g.traceUse s mode r u) g).program.strip
        false = p.strip false := by
      rw [hfirst, strip_waitAll, h]
    rw [traceUses, List.foldl_cons, ← traceUses,
      eq_of_strip (f := fun p => p.operandUses r.base) (fun _ => operandUses_strip) h, ih hstrip,
      hfirst, ← waitAll_append, conflictTokens, conflictTokens, List.flatMap_cons,
      List.filterMap_append]
    rfl

end Growing

/-! ## One operation -/

namespace Program

/-- What `s` accesses, reads before writes. -/
def accessRefs (p : Program) (s : OpId) : List PartialRef :=
  (p.accesses s).reads ++ (p.accesses s).writes

theorem conflictTokens_append (refs refs' : List PartialRef) :
    p.conflictTokens s mode (refs ++ refs') =
      p.conflictTokens s mode refs ++ p.conflictTokens s mode refs' := by
  rw [conflictTokens, List.flatMap_append, List.filterMap_append, conflictTokens, conflictTokens]

theorem trace_eq (hs : s.index < p.ops.size) :
    let more := p.missing s (p.conflictTokens s mode (p.accessRefs s))
    p.trace s mode = ⟨p.setDeps s (p.deps s ++ more), more.length⟩ := by
  have hall := Growing.waitAll_missing (g := p.growing)
    (p.conflictTokens s mode (p.accessRefs s)) hs
  rw [growing, Nat.zero_add, accessRefs, conflictTokens_append] at hall
  rw [accessRefs, conflictTokens_append]
  exact hall

/-- Tracing an operation appends to its list just the completion tokens of what conflicts with it
and stands before it, each once, and counts them; the uses may as well be looked up while the list
grows. -/
theorem trace_exact {source : String} (hsource : readProgram source = .ok p)
    (hs : s.index < p.ops.size) (mode : ConflictMode) :
    (∃ more, p.trace s mode = ⟨p.setDeps s (p.deps s ++ more), more.length⟩ ∧ more.Nodup ∧
      ∀ v, v ∈ more ↔ v ∉ p.deps s ∧ ∃ a, p.completionToken? a = some v ∧
        p.ConflictsBefore mode ((p.accesses s).reads ++ (p.accesses s).writes) a s) ∧
    (p.growing.traceUses s mode (p.accesses s).reads).traceUses s mode (p.accesses s).writes =
      p.trace s mode := by
  have hp := wellFormed_of_readProgram hsource
  refine ⟨⟨_, trace_eq hs, nodup_eraseDups _, fun v => ?_⟩, ?_⟩
  · rw [mem_missing, hp.mem_conflictTokens_iff, and_comm]
    rfl
  · have hreads : p.growing.traceUses s mode (p.accesses s).reads =
        p.growing.waitAll s (p.conflictTokens s mode (p.accesses s).reads) :=
      Growing.traceUses_eq (g := p.growing) rfl _
    have hstrip : (p.growing.waitAll s (p.conflictTokens s mode (p.accesses s).reads)).program.strip
        false = p.strip false :=
      Growing.strip_waitAll (g := p.growing) _
    rw [hreads, Growing.traceUses_eq hstrip, ← Growing.waitAll_append]
    rfl

/-- The last transfer waits on the first already, and conflicts twice with the one in the loop. -/
def tracedPastLoop : String := "func @f(%a: memref<1, L2>, %b: memref<1, L2>, %n: index) \x7b
  %s = transfer %b <- %a
  %l = for %i = %n to %n step %n iter(%k = %s) \x7b
    %t = transfer [%k] %b[%i] <- %a
    yield %t
  \x7d
  %u = transfer [%s] %a <- %b
\x7d
"

theorem trace_exact_tracedPastLoop : ∃ p, readProgram tracedPastLoop = .ok p ∧
    4 < p.ops.size ∧ (p.trace ⟨4⟩ .anyAfterAny).program.deps ⟨4⟩ = [⟨3⟩, ⟨7⟩] ∧
    ∃ more, p.trace ⟨4⟩ .anyAfterAny = ⟨p.setDeps ⟨4⟩ (p.deps ⟨4⟩ ++ more), more.length⟩ ∧
      more.Nodup ∧ ∀ v, v ∈ more ↔ v ∉ p.deps ⟨4⟩ ∧ ∃ a, p.completionToken? a = some v ∧
        p.ConflictsBefore .anyAfterAny ((p.accesses ⟨4⟩).reads ++ (p.accesses ⟨4⟩).writes)
          a ⟨4⟩ := by
  obtain ⟨p, hsource, htest⟩ := accepts_iff.1
    (show accepts tracedPastLoop (fun p => decide (4 < p.ops.size) &&
      (p.trace ⟨4⟩ .anyAfterAny).program.deps ⟨4⟩ = [⟨3⟩, ⟨7⟩]) = true by decide +kernel)
  simp only [Bool.and_eq_true, decide_eq_true_eq] at htest
  obtain ⟨hs, hdeps⟩ := htest
  exact ⟨p, hsource, hs, hdeps, (trace_exact hsource hs .anyAfterAny).1⟩

end Program

end AsyncOrder
