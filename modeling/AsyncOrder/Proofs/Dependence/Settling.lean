import AsyncOrder.Proofs.Dependence.Tracing

/-!
# Tracing settles at once

Tracing appends to the dependency lists of asynchronous operations, and only what is missing:

    p.GrowsTo (p.traceAll forced).1                                         (growsTo_traceAll)
    (p.traceAll forced).1.depCount = p.depCount + (p.traceAll forced).2.tokensAdded
                                                                            (depCount_traceAll)

What an operation is found to wait on does not depend on the lists, so a second run looks for the
same tokens and finds all of them there.  It can only thread operations through loops that have
an empty list after the first run.  Those had an empty list at their turn as well, so that what
the loops call for is there, too:

    (p.traceAll forced).1.traceAll forced =
      ((p.traceAll forced).1, ⟨(p.traceAll forced).2.sinks, 0⟩)              (traceAll_traceAll)
-/

namespace AsyncOrder

open Program

variable {p q r : Program} {g g' : Growing} {forced : Option ConflictMode}
variable {o z sink loop current : OpId} {v token carried : ValueId}
variable {waits : List (OpId × ValueId)}

/-! ## Longer lists -/

namespace Program

/-- `q` is `p` where asynchronous operations wait on more: on tokens that are appended to their
lists, each once, and that were missing there. -/
structure GrowsTo (p q : Program) : Prop where
  rest : q = { p with ops := q.ops }
  size : q.ops.size = p.ops.size
  appends (o : OpId) : ∃ more, q.op o = { p.op o with deps := p.deps o ++ more } ∧ more.Nodup ∧
    (∀ v ∈ more, v ∉ p.deps o) ∧ (more ≠ [] → (p.kind o).isAsync = true)

/-- The number of entries of all dependency lists. -/
def depCount (p : Program) : Nat := (p.ops.toList.flatMap (·.deps)).length

theorem GrowsTo.refl (p : Program) : p.GrowsTo p where
  rest := rfl
  size := rfl
  appends o := ⟨[], by simp [deps], List.nodup_nil, by simp, fun h => absurd rfl h⟩

theorem GrowsTo.trans (hpq : p.GrowsTo q) (hqr : q.GrowsTo r) : p.GrowsTo r where
  rest := by
    have hp := hpq.rest
    have hq := hqr.rest
    rw [hp] at hq
    exact hq
  size := hqr.size.trans hpq.size
  appends o := by
    obtain ⟨more, hq, hnodup, hnew, hasync⟩ := hpq.appends o
    obtain ⟨more', hr, hnodup', hnew', hasync'⟩ := hqr.appends o
    have hdeps : q.deps o = p.deps o ++ more := by rw [deps, hq]
    have hkind : q.kind o = p.kind o := by rw [kind, hq, kind]
    rw [hdeps] at hr hnew'
    refine ⟨more ++ more', ?_, ?_, ?_, ?_⟩
    · rw [hr, hq, List.append_assoc]
    · exact hnodup.append hnodup' fun v hv hv' => hnew' v hv' (List.mem_append_right _ hv)
    · intro v hv
      rcases List.mem_append.1 hv with hv | hv
      · exact hnew v hv
      · exact fun h => hnew' v hv (List.mem_append_left _ h)
    · intro hne
      by_cases hmore : more = []
      · exact hkind ▸ hasync' fun h => hne (by rw [hmore, h]; rfl)
      · exact hasync hmore

/-- An operation that is not in the arena is not asynchronous. -/
theorem lt_of_isAsync (h : (p.kind o).isAsync = true) : o.index < p.ops.size := by
  by_contra hle
  rw [kind, op_of_size_le (Nat.le_of_not_lt hle)] at h
  exact absurd h (by decide)

theorem growsTo_setDeps (hasync : (p.kind o).isAsync = true) (hnew : token ∉ p.deps o) :
    p.GrowsTo (p.setDeps o (p.deps o ++ [token])) where
  rest := rfl
  size := size_ops_setDeps
  appends z := by
    by_cases hz : z = o
    · subst hz
      have hlt := lt_of_isAsync hasync
      refine ⟨[token], ?_, List.nodup_singleton _, ?_, fun _ => hasync⟩
      · rw [op, setDeps, modifyOp, Array.getElem?_modify, if_pos rfl, deps, op,
          Array.getElem?_eq_getElem hlt]
        rfl
      · simpa using hnew
    · have hindex : o.index ≠ z.index := fun h => hz (congrArg OpId.mk h.symm)
      refine ⟨[], ?_, List.nodup_nil, by simp, fun h => absurd rfl h⟩
      rw [op, setDeps, modifyOp, Array.getElem?_modify, if_neg hindex, List.append_nil]
      rfl

theorem depCount_setDeps (ho : o.index < p.ops.size) :
    (p.setDeps o (p.deps o ++ [token])).depCount = p.depCount + 1 := by
  have hlt : o.index < p.ops.toList.length := by simpa using ho
  have hdeps : p.deps o = p.ops.toList[o.index].deps := by simp [deps, op, ho]
  have hsplit : p.ops.toList =
      p.ops.toList.take o.index ++ p.ops.toList[o.index] :: p.ops.toList.drop (o.index + 1) := by
    rw [← List.drop_eq_getElem_cons hlt, List.take_append_drop]
  rw [depCount, depCount, setDeps, modifyOp, Array.toList_modify,
    List.modify_eq_take_cons_drop hlt]
  conv_rhs => rw [hsplit]
  simp only [List.flatMap_append, List.flatMap_cons, List.length_append, hdeps,
    List.length_singleton]
  omega

end Program

/-! ## Growing -/

namespace Growing

/-- What `g` becomes when asynchronous operations are made to wait, and the number of tokens
appended is told right. -/
structure To (g g' : Growing) : Prop where
  growsTo : g.program.GrowsTo g'.program
  count : g'.program.depCount + g.added = g.program.depCount + g'.added

theorem To.refl (g : Growing) : g.To g := ⟨.refl _, rfl⟩

theorem To.trans {g'' : Growing} (h : g.To g') (h' : g'.To g'') : g.To g'' where
  growsTo := h.growsTo.trans h'.growsTo
  count := by
    have := h.count
    have := h'.count
    omega

theorem To.kind (h : g.To g') (o : OpId) : g'.program.kind o = g.program.kind o := by
  obtain ⟨more, hop, -⟩ := h.growsTo.appends o
  rw [Program.kind, hop, Program.kind]

theorem to_wait (hasync : (g.program.kind o).isAsync = true) : g.To (g.wait o token) := by
  rw [wait]
  split
  · next hlacks =>
    have hnew : token ∉ g.program.deps o := by simpa [lacksDep] using hlacks
    have hlt := lt_of_isAsync hasync
    rw [addDep, if_neg hnew]
    refine ⟨growsTo_setDeps hasync hnew, ?_⟩
    rw [depCount_setDeps hlt, Nat.add_right_comm, Nat.add_assoc]
  · exact .refl g

theorem to_waitEach (waits : List (OpId × ValueId))
    (hasync : ∀ e ∈ waits, (g.program.kind e.1).isAsync = true) : g.To (g.waitEach waits) := by
  induction waits generalizing g with
  | nil => exact .refl g
  | cons e waits ih =>
    have hstep : g.To (g.wait e.1 e.2) := to_wait (hasync e List.mem_cons_self)
    rw [waitEach, List.foldl_cons, ← waitEach]
    refine hstep.trans (ih fun e' he' => ?_)
    rw [hstep.kind]
    exact hasync e' (List.mem_cons_of_mem _ he')

/-- Waiting on what is there already changes nothing. -/
theorem waitEach_of_forall_mem (waits : List (OpId × ValueId))
    (h : ∀ e ∈ waits, e.2 ∈ g.program.deps e.1) : g.waitEach waits = g := by
  induction waits with
  | nil => rfl
  | cons e waits ih =>
    have hstep : g.wait e.1 e.2 = g := by
      simp [wait, lacksDep, h e List.mem_cons_self]
    have hcons : g.waitEach (e :: waits) = (g.wait e.1 e.2).waitEach waits := rfl
    rw [hcons, hstep]
    exact ih fun e' he' => h e' (List.mem_cons_of_mem _ he')

end Growing

/-! ## What a sink appends -/

/-- Only asynchronous operations are threaded through loops. -/
theorem Program.isAsync_of_mem_loopWaits {ancestors : List OpId} {e : OpId × ValueId}
    (h : e ∈ p.loopWaits current ancestors) : (p.kind e.1).isAsync = true := by
  induction ancestors generalizing current with
  | nil => exact absurd h List.not_mem_nil
  | cons loop outer ih =>
    rw [loopWaits] at h
    cases hcarried : p.carriedToken? loop with
    | none => simp [hcarried] at h
    | some carried =>
      simp only [hcarried, List.mem_append] at h
      rcases h with h | h
      · rw [carriedWaits, List.mem_append] at h
        rcases h with h | h
        · obtain ⟨waiter, hwaiter, rfl⟩ := List.mem_map.1 h
          rw [Option.mem_toList, carriedWaiter?] at hwaiter
          split at hwaiter
          · next hasync => exact Option.some.inj hwaiter ▸ hasync
          · exact (Option.filter_eq_some_iff.1 hwaiter).2
        · split at h
          · next token join _ hjoin =>
            split at h
            · obtain rfl := List.mem_singleton.1 h
              have hkind := of_decide_eq_true (Option.filter_eq_some_iff.1 hjoin).2
              simp only [hkind]
              rfl
            · exact absurd h List.not_mem_nil
          · exact absurd h List.not_mem_nil
      · exact ih h

namespace Growing

theorem to_traceSink (hasync : (g.program.kind sink).isAsync = true) :
    g.To (g.traceSink forced sink) := by
  rw [traceSink_eq forced (lt_of_isAsync hasync)]
  refine to_waitEach _ fun e he => ?_
  rcases List.mem_append.1 he with he | he
  · obtain ⟨token, -, rfl⟩ := List.mem_map.1 he
    exact hasync
  · split at he
    · exact isAsync_of_mem_loopWaits he
    · exact absurd he List.not_mem_nil

theorem to_traced (done : List OpId) (hasync : ∀ o ∈ done, (g.program.kind o).isAsync = true) :
    g.To (g.traced forced done) := by
  induction done generalizing g with
  | nil => exact .refl g
  | cons sink done ih =>
    have hstep : g.To (g.traceSink forced sink) := to_traceSink (hasync sink List.mem_cons_self)
    rw [traced, List.foldl_cons, ← traced]
    refine hstep.trans (ih fun o ho => ?_)
    rw [hstep.kind]
    exact hasync o (List.mem_cons_of_mem _ ho)

theorem traced_of_forall (forced : Option ConflictMode) (done : List OpId)
    (h : ∀ o ∈ done, g.traceSink forced o = g) :
    g.traced forced done = g := by
  induction done with
  | nil => rfl
  | cons sink done ih =>
    rw [traced, List.foldl_cons, ← traced, h sink List.mem_cons_self]
    exact ih fun o ho => h o (List.mem_cons_of_mem _ ho)

end Growing

/-! ## A run -/

namespace Program

theorem to_traceAll (forced : Option ConflictMode) :
    p.growing.To ⟨(p.traceAll forced).1, (p.traceAll forced).2.tokensAdded⟩ :=
  Growing.to_traced p.sinks fun _ ho => (List.mem_filter.1 ho).2

theorem growsTo_traceAll (forced : Option ConflictMode) : p.GrowsTo (p.traceAll forced).1 :=
  (to_traceAll forced).growsTo

theorem depCount_traceAll (forced : Option ConflictMode) :
    (p.traceAll forced).1.depCount = p.depCount + (p.traceAll forced).2.tokensAdded :=
  (to_traceAll forced).count

theorem sinks_eq_of_strip (h : q.strip false = p.strip false) : q.sinks = p.sinks := by
  have hsinks : ∀ p : Program, (p.strip false).sinks = p.sinks := fun p => by
    rw [sinks, sinks, walk_strip]
    simp only [kind_strip]
  rw [← hsinks q, h, hsinks]

section

variable (hp : p.WellFormed)
include hp

/-- After a run, each sink waits on all it is found to wait on. -/
theorem WellFormed.traceSink_traceAll (hsink : sink ∈ p.sinks) (n : Nat) :
    (⟨(p.traceAll forced).1, n⟩ : Growing).traceSink forced sink = ⟨(p.traceAll forced).1, n⟩ := by
  have hstrip := p.strip_traceAll forced
  obtain ⟨hlt, hasync⟩ := hp.mem_sinks.1 hsink
  rw [Growing.traceSink_eq forced (by rwa [size_ops_of_strip hstrip])]
  refine Growing.waitEach_of_forall_mem _ fun e he => ?_
  simp only [Growing.sinkWaits, sinkTokens_eq_of_strip hstrip, loopWaits_eq_of_strip hstrip,
    ancestors_eq_of_strip hstrip, List.mem_append, List.mem_map] at he
  rcases he with ⟨token, htoken, rfl⟩ | he
  · exact (hp.mem_deps_traceAll hlt).2 (Or.inr (Or.inl ⟨hasync, htoken⟩))
  · split at he
    · next hnone =>
      -- a list that is empty in the end was empty before
      obtain ⟨pre, post, hsinks⟩ := List.append_of_mem hsink
      have hidle : p.Idle forced sink := by
        refine ⟨pre, post, hsinks, List.eq_nil_iff_forall_not_mem.2 fun v hv => ?_, hnone.2⟩
        have hgrown := (Growing.mem_deps_traced (g := p.growing) (v := v) (o := sink) forced pre
          fun o ho => lt_of_mem_sinks (hsinks ▸ List.mem_append_left _ ho)).1 hv
        have hall := (Growing.mem_deps_traced (g := p.growing) (v := v) (o := sink) forced p.sinks
          fun o ho => lt_of_mem_sinks ho).2 <| hgrown.imp_right ?_
        · exact absurd (hnone.1 ▸ hall) List.not_mem_nil
        · rintro ⟨hlt, pre', a, post', h⟩
          exact ⟨hlt, pre', a, post' ++ sink :: post, by rw [hsinks, h.1]; simp, h.2⟩
      have hwaiter := lt_of_isAsync (isAsync_of_mem_loopWaits he)
      exact (hp.mem_deps_traceAll hwaiter).2 (Or.inr (Or.inr ⟨sink, hidle, he⟩))
    · exact absurd he List.not_mem_nil

/-- A second run finds nothing to append. -/
theorem WellFormed.traceAll_traceAll (forced : Option ConflictMode) :
    (p.traceAll forced).1.traceAll forced =
      ((p.traceAll forced).1, ⟨(p.traceAll forced).2.sinks, 0⟩) := by
  have hsinks := sinks_eq_of_strip (p.strip_traceAll forced)
  have hsettled := Growing.traced_of_forall (g := (p.traceAll forced).1.growing) forced
    p.sinks fun o ho => hp.traceSink_traceAll ho 0
  rw [Growing.traced] at hsettled
  rw [traceAll, hsinks, hsettled]
  rfl

end

/-! ## Programs that are read -/

/-- Tracing a program appends what is missing to the lists of asynchronous operations, counts it,
and has nothing left to do. -/
theorem tracing_settles {source : String} (forced : Option ConflictMode)
    (hsource : readProgram source = .ok p) :
    p.GrowsTo (p.traceAll forced).1 ∧
    (p.traceAll forced).1.depCount = p.depCount + (p.traceAll forced).2.tokensAdded ∧
    (p.traceAll forced).1.traceAll forced =
      ((p.traceAll forced).1, ⟨(p.traceAll forced).2.sinks, 0⟩) :=
  ⟨growsTo_traceAll forced, depCount_traceAll forced,
    (wellFormed_of_readProgram hsource).traceAll_traceAll forced⟩

/-- The transfer in the loop has nothing to wait on, and the one behind writes what it reads. -/
def readInLoop : String := "func @f(%a: memref<1, L2>, %b: memref<1, L2>, %n: index) \x7b
  %s = join
  %l = for %i = %n to %n step %n iter(%k = %s) \x7b
    %t = transfer %a <- %b
    %j = join
    yield %j
  \x7d
  %u = transfer %b <- %a
\x7d
"

theorem tracing_settles_readInLoop : ∃ p, readProgram readInLoop = .ok p ∧
    (p.traceAll none).2.tokensAdded = 3 ∧ p.GrowsTo (p.traceAll none).1 ∧
    (p.traceAll none).1.depCount = p.depCount + 3 ∧
    (p.traceAll none).1.traceAll none = ((p.traceAll none).1, ⟨4, 0⟩) := by
  obtain ⟨p, hsource, htest⟩ := accepts_iff.1
    (show accepts readInLoop (fun p => (p.traceAll none).2 = ⟨4, 3⟩) = true by decide +kernel)
  have hstats := of_decide_eq_true htest
  obtain ⟨hgrows, hcount, hagain⟩ := tracing_settles none hsource
  rw [hstats] at hcount hagain
  exact ⟨p, hsource, by rw [hstats], hgrows, hcount, hagain⟩

end Program

end AsyncOrder
