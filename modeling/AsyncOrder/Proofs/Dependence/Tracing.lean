import AsyncOrder.Proofs.Dependence.Stripping

/-!
# What tracing appends

Tracing goes through the asynchronous operations in document order.  In the end a dependency list
holds what it held before, the tokens of its own accesses, and what the loops around idle
operations call for; an operation is idle if it waits on nothing when its own tokens have been
appended:

    v ∈ (p.traceAll forced).1.deps o ↔ v ∈ p.deps o ∨ v ∈ p.sinkTokens forced o ∨
      ∃ sink, p.Idle forced sink ∧ (o, v) ∈ p.loopWaits sink (p.ancestors sink)
                                                                       (mem_deps_traceAll)

All operations of a program that is read are met, and the tokens of accesses are completion
tokens of what stands before the operation in its block.
-/

namespace AsyncOrder

open Program Relation

variable {p q : Program} {g : Growing} {forced : Option ConflictMode} {mode : ConflictMode}
variable {o z a sink source : OpId} {v token : ValueId} {b : BlockId}

/-! ## All operations -/

theorem Program.lt_of_mem_sinks (ho : o ∈ p.sinks) : o.index < p.ops.size := by
  obtain ⟨f, -, ho⟩ := List.mem_flatMap.1 (List.mem_of_mem_filter ho)
  exact lt_of_isLive (isLive_of_mem_walkFrom ho)

theorem Program.WellFormed.mem_sinks (hp : p.WellFormed) :
    o ∈ p.sinks ↔ o.index < p.ops.size ∧ (p.kind o).isAsync = true := by
  rw [sinks, List.mem_filter, hp.mem_walk]

/-! ## One operation -/

theorem Growing.waitAll_eq (tokens : List ValueId) :
    g.waitAll o tokens = g.waitEach (tokens.map (o, ·)) := by
  rw [waitEach, List.foldl_map, waitAll]

/-- What `sink` appends when its turn comes. -/
def Growing.sinkWaits (g : Growing) (forced : Option ConflictMode) (sink : OpId) :
    List (OpId × ValueId) :=
  let p := g.program
  (p.sinkTokens forced sink).map (sink, ·) ++
    if p.deps sink = [] ∧ p.sinkTokens forced sink = [] then
      p.loopWaits sink (p.ancestors sink)
    else []

theorem Growing.traceSink_eq (forced : Option ConflictMode)
    (hsink : sink.index < g.program.ops.size) :
    g.traceSink forced sink = g.waitEach (g.sinkWaits forced sink) := by
  have hstrip := strip_waitEach ((g.program.sinkTokens forced sink).map (sink, ·)) g
  have hidle : ((g.waitAll sink (g.program.sinkTokens forced sink)).program.deps sink).isEmpty =
      true ↔ g.program.deps sink = [] ∧ g.program.sinkTokens forced sink = [] := by
    simp only [List.isEmpty_iff, List.eq_nil_iff_forall_not_mem, waitAll_eq, mem_deps_waitEach,
      List.mem_map, Prod.mk.injEq, true_and, exists_eq_right, hsink, not_or, forall_and]
  rw [traceSink, sinkWaits]
  simp only [hidle]
  rw [waitAll_eq, loopWaits_eq_of_strip hstrip, ancestors_eq_of_strip hstrip]
  split
  · rw [waitEach, waitEach, waitEach, List.foldl_append]
  · rw [List.append_nil]

/-! ## All of them in turn -/

/-- The program after the operations of `done`. -/
def Growing.traced (g : Growing) (forced : Option ConflictMode) (done : List OpId) : Growing :=
  done.foldl (fun g sink => g.traceSink forced sink) g

theorem Growing.strip_traced (forced : Option ConflictMode) (done : List OpId)
    (hdone : ∀ o ∈ done, o.index < g.program.ops.size) :
    (g.traced forced done).program.strip false = g.program.strip false := by
  induction done generalizing g with
  | nil => rfl
  | cons sink done ih =>
    have hstep : (g.traceSink forced sink).program.strip false = g.program.strip false := by
      rw [traceSink_eq forced (hdone sink List.mem_cons_self), strip_waitEach]
    rw [traced, List.foldl_cons, ← traced, ih fun o ho => ?_, hstep]
    rw [size_ops_of_strip hstep]
    exact hdone o (List.mem_cons_of_mem _ ho)

theorem Growing.mem_deps_traced (forced : Option ConflictMode) (done : List OpId)
    (hdone : ∀ o ∈ done, o.index < g.program.ops.size) :
    v ∈ (g.traced forced done).program.deps o ↔ v ∈ g.program.deps o ∨
      o.index < g.program.ops.size ∧ ∃ pre sink post, done = pre ++ sink :: post ∧
        (o, v) ∈ (g.traced forced pre).sinkWaits forced sink := by
  induction done generalizing g with
  | nil => simp [traced]
  | cons sink done ih =>
    have hstep := traceSink_eq forced (hdone sink List.mem_cons_self)
    have hsize : (g.traceSink forced sink).program.ops.size = g.program.ops.size :=
      size_ops_of_strip (by rw [hstep, strip_waitEach])
    rw [traced, List.foldl_cons, ← traced,
      ih fun o ho => hsize.symm ▸ hdone o (List.mem_cons_of_mem _ ho), hsize, hstep,
      mem_deps_waitEach, or_assoc, ← and_or_left]
    refine or_congr_right (and_congr_right fun _ => ?_)
    constructor
    · rintro (h | ⟨pre, sink', post, rfl, h⟩)
      · exact ⟨[], sink, done, rfl, h⟩
      · refine ⟨sink :: pre, sink', post, rfl, ?_⟩
        rw [traced, List.foldl_cons, ← traced, hstep]
        exact h
    · rintro ⟨pre, sink', post, heq, h⟩
      rcases List.cons_eq_append_iff.1 heq with ⟨rfl, hfirst⟩ | ⟨pre, rfl, hrest⟩
      · obtain ⟨rfl, rfl⟩ := List.cons.inj hfirst
        exact Or.inl h
      · refine Or.inr ⟨pre, sink', post, hrest, ?_⟩
        rw [traced, List.foldl_cons, ← traced, hstep] at h
        exact h

/-- When its turn comes, and its own tokens have been appended, `sink` waits on nothing. -/
def Program.Idle (p : Program) (forced : Option ConflictMode) (sink : OpId) : Prop :=
  ∃ pre post, p.sinks = pre ++ sink :: post ∧ (p.growing.traced forced pre).program.deps sink = [] ∧
    p.sinkTokens forced sink = []

/-- Tracing changes nothing but dependency lists. -/
theorem Program.strip_traceAll (forced : Option ConflictMode) :
    (p.traceAll forced).1.strip false = p.strip false :=
  Growing.strip_traced forced p.sinks fun _ ho => lt_of_mem_sinks ho

theorem Program.mem_sinkWaits {pre post : List OpId}
    (h : p.sinks = pre ++ sink :: post) :
    (o, v) ∈ (p.growing.traced forced pre).sinkWaits forced sink ↔
      o = sink ∧ v ∈ p.sinkTokens forced sink ∨
      ((p.growing.traced forced pre).program.deps sink = [] ∧ p.sinkTokens forced sink = []) ∧
        (o, v) ∈ p.loopWaits sink (p.ancestors sink) := by
  have hstrip := Growing.strip_traced (g := p.growing) forced pre fun o ho =>
    lt_of_mem_sinks (h ▸ List.mem_append_left _ ho)
  have htokens : (p.growing.traced forced pre).program.sinkTokens forced sink =
      p.sinkTokens forced sink := sinkTokens_eq_of_strip hstrip
  rw [Growing.sinkWaits, htokens, loopWaits_eq_of_strip hstrip, ancestors_eq_of_strip hstrip,
    List.mem_append, List.mem_map]
  refine or_congr ?_ ?_
  · simp only [Prod.mk.injEq]
    constructor
    · rintro ⟨w, hw, rfl, rfl⟩
      exact ⟨rfl, hw⟩
    · rintro ⟨rfl, hv⟩
      exact ⟨v, hv, rfl, rfl⟩
  · split
    · next h => exact (and_iff_right h).symm
    · next h => simp [h]

section

variable (hp : p.WellFormed)
include hp

/-- What the lists hold in the end. -/
theorem Program.WellFormed.mem_deps_traceAll (ho : o.index < p.ops.size) :
    v ∈ (p.traceAll forced).1.deps o ↔ v ∈ p.deps o ∨
      (p.kind o).isAsync = true ∧ v ∈ p.sinkTokens forced o ∨
      ∃ sink, p.Idle forced sink ∧ (o, v) ∈ p.loopWaits sink (p.ancestors sink) := by
  have hall := Growing.mem_deps_traced (g := p.growing) (o := o) (v := v) forced
    p.sinks fun _ h => lt_of_mem_sinks h
  refine hall.trans (or_congr_right ((and_iff_right ho).trans ?_))
  constructor
  · rintro ⟨pre, sink, post, h, hmem⟩
    rcases (mem_sinkWaits h).1 hmem with ⟨rfl, hv⟩ | ⟨⟨hdeps, htokens⟩, hv⟩
    · have hsink : o ∈ p.sinks := h ▸ List.mem_append_right _ List.mem_cons_self
      exact Or.inl ⟨(hp.mem_sinks.1 hsink).2, hv⟩
    · exact Or.inr ⟨sink, ⟨pre, post, h, hdeps, htokens⟩, hv⟩
  · rintro (⟨hasync, hv⟩ | ⟨sink, ⟨pre, post, h, hdeps, htokens⟩, hv⟩)
    · obtain ⟨pre, post, h⟩ := List.append_of_mem (hp.mem_sinks.2 ⟨ho, hasync⟩)
      exact ⟨pre, o, post, h, (mem_sinkWaits h).2 (Or.inl ⟨rfl, hv⟩)⟩
    · exact ⟨pre, sink, post, h, (mem_sinkWaits h).2 (Or.inr ⟨⟨hdeps, htokens⟩, hv⟩)⟩

end

/-! ## Tokens of accesses -/

/-- The tokens found are those of operations before the sink. -/
theorem Program.of_firstWaitToken? {candidates : List OpId}
    (h : p.firstWaitToken? sink candidates = some token) :
    ∃ c ∈ candidates, p.isBefore c sink = true ∧ p.completionToken? c = some token := by
  induction candidates with
  | nil => cases h
  | cons c candidates ih =>
    have hrest : p.firstWaitToken? sink candidates = some token →
        ∃ c' ∈ c :: candidates, p.isBefore c' sink = true ∧
          p.completionToken? c' = some token := fun h => by
      obtain ⟨c', hc', hfound⟩ := ih h
      exact ⟨c', List.mem_cons_of_mem c hc', hfound⟩
    rw [firstWaitToken?] at h
    split at h
    · cases h
    · split at h
      · next hbefore =>
        split at h
        · next hfound => exact ⟨c, List.mem_cons_self, hbefore, hfound.trans h⟩
        · exact hrest h
      · exact hrest h

theorem Program.mem_sinkTokens (h : token ∈ p.sinkTokens forced sink) :
    ∃ c, p.isBefore c sink = true ∧ p.completionToken? c = some token := by
  have hwait : ∀ sources : List OpId, token ∈ sources.filterMap (p.waitToken? · sink) →
      ∃ c, p.isBefore c sink = true ∧ p.completionToken? c = some token := by
    intro sources hmem
    obtain ⟨source, -, hsource⟩ := List.mem_filterMap.1 hmem
    obtain ⟨c, -, hc⟩ := of_firstWaitToken? hsource
    exact ⟨c, hc⟩
  simp only [sinkTokens, List.mem_append] at h
  rcases h with ((h | h) | h) | h
  all_goals exact hwait _ h

end AsyncOrder
