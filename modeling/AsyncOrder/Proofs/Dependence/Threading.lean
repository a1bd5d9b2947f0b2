import AsyncOrder.Proofs.Dependence.Tracing

/-!
# Threading through loops

An idle operation is threaded through the loops around it that carry a token first.  In the body
of such a loop something stands for it: the operation itself, or the loop it lies in.  What makes
the initial token of that loop comes to wait on the carried token, and the join in front of the
yield on its completion.  Both are in scope just if the former stands before, and the latter
behind, in the same block:

    every dependency is in scope after tracing ↔
      for every idle operation, in every loop it is threaded through, p.Threads loop current
                                                                    (scoped_traceAll_iff)
-/

namespace AsyncOrder

open Program Relation

variable {p : Program} {forced : Option ConflictMode} {mode : ConflictMode}
variable {o z a j d sink loop current : OpId} {v token carried : ValueId} {b : BlockId}

/-! ## Values in scope -/

/-- `v` is an argument of a block around `o`, or a result of what stands before `o` or before an
operation around it. -/
def Program.InScope (p : Program) (o : OpId) (v : ValueId) : Prop :=
  ∃ a, (a = o ∨ a ∈ p.ancestors o) ∧
    (v ∈ (p.block (p.op a).parent).args ∨ ∃ z, p.isBefore z a = true ∧ v ∈ (p.op z).results)

theorem Program.Linked.around_iff (hp : p.Linked) (ho : o.index < p.ops.size) :
    a = o ∨ a ∈ p.ancestors o ↔ p.Under (fun _ => true) a o := by
  rw [hp.mem_ancestors ho]
  constructor
  · rintro (rfl | ⟨z, hz, haz⟩)
    · exact .refl
    · exact haz.tail ⟨rfl, hp.mem_nested_iff.2 ⟨ho, hz⟩⟩
  · intro h
    rcases ReflTransGen.cases_tail h with rfl | ⟨z, haz, hz⟩
    · exact Or.inl rfl
    · exact Or.inr ⟨z, (hp.mem_nested_iff.1 hz.2).2, haz⟩

theorem Program.Linked.lt_of_under (hp : p.Linked) (ho : o.index < p.ops.size)
    (h : p.Under (fun _ => true) a o) : a.index < p.ops.size := by
  rcases ReflTransGen.cases_head h with rfl | ⟨y, hy, -⟩
  · exact ho
  · exact hp.owner_lt (hp.mem_nested_iff.1 hy.2).2

theorem Program.Visible.inScope (hp : p.Linked) (ho : o.index < p.ops.size) (h : p.Visible o v) :
    p.InScope o v := by
  obtain ⟨a, ha, hv⟩ := visible_iff.1 h
  exact ⟨a, (hp.around_iff ho).2 (hp.under_of_outer ho ha).2, hv⟩

/-- An argument of a block is in scope in the operation that has the block only. -/
theorem Program.InScope.under (hp : p.Linked) (ho : o.index < p.ops.size)
    (hv : v ∈ (p.block b).args) (hb : (p.block b).parentOp = some z) (h : p.InScope o v) :
    ∃ a, a.index < p.ops.size ∧ p.parentOp? a = some z ∧ p.Under (fun _ => true) a o := by
  obtain ⟨a, ha, hv' | ⟨x, -, hv'⟩⟩ := h
  · obtain rfl := hp.eq_of_mem_args hv hv'
    have hao := (hp.around_iff ho).1 ha
    exact ⟨a, hp.lt_of_under ho hao, hb, hao⟩
  · exact absurd hv' (hp.not_mem_results_of_arg hv)

/-- A result is in scope behind its operation only. -/
theorem Program.InScope.isBefore (hp : p.Linked) (ho : o.index < p.ops.size)
    (hv : v ∈ (p.op z).results) (h : p.InScope o v) :
    ∃ a, p.isBefore z a = true ∧ p.Under (fun _ => true) a o := by
  obtain ⟨a, ha, hv' | ⟨x, hx, hv'⟩⟩ := h
  · exact absurd hv (hp.not_mem_results_of_arg hv')
  · obtain rfl := hp.eq_of_mem_results hv' hv
    exact ⟨a, hx, (hp.around_iff ho).1 ha⟩

theorem Program.inScope_iff_of_strip {q : Program} (h : q.strip false = p.strip false) :
    q.InScope o v ↔ p.InScope o v := by
  have hbefore : ∀ z a, q.isBefore z a = p.isBefore z a := fun z a => by
    rw [← @isBefore_strip q false, h, isBefore_strip]
  simp only [InScope, ancestors_eq_of_strip h, block_eq_of_strip h, parent_eq_of_strip h, hbefore,
    results_eq_of_strip h]

/-- What stands before an operation lies in nothing that is around that operation. -/
theorem Program.Linked.not_under_of_isBefore (hp : p.Linked) (h : p.isBefore d a = true) :
    ¬ p.Under (fun _ => true) a d := by
  intro hunder
  obtain ⟨hd, ha⟩ := hp.lt_of_isBefore h
  obtain rfl := hp.eq_of_under ha (parent_eq_of_isBefore h).2.symm hunder
  exact Nat.lt_irrefl _ ((hp.isBefore_iff hd ha).1 h).2

/-! ## What stands for the operation -/

/-- The loops an operation is threaded through, each with what stands for it in the body. -/
def Program.threads (p : Program) (current : OpId) : (ancestors : List OpId) → List (OpId × OpId)
  | [] => []
  | loop :: outer =>
    if (p.carriedToken? loop).isSome then (loop, current) :: p.threads loop outer else []

theorem Program.mem_loopWaits {ancestors : List OpId} :
    (o, v) ∈ p.loopWaits current ancestors ↔ ∃ e ∈ p.threads current ancestors,
      ∃ carried, p.carriedToken? e.1 = some carried ∧ (o, v) ∈ p.carriedWaits e.1 e.2 carried := by
  induction ancestors generalizing current with
  | nil => simp [loopWaits, threads]
  | cons loop outer ih =>
    rw [loopWaits, threads]
    cases hc : p.carriedToken? loop with
    | none => simp
    | some carried => simp [ih, hc]

/-- `current` lies directly in the body of `loop`, which carries a token first. -/
structure Program.Carries (p : Program) (loop current : OpId) : Prop where
  lt : current.index < p.ops.size
  parent : p.parentOp? current = some loop
  isLoop : (p.kind loop).isLoop = true
  carried : (p.carriedToken? loop).isSome = true

theorem Program.carries_of_mem_threads (hp : p.Linked) (ho : current.index < p.ops.size)
    {e : OpId × OpId} (he : e ∈ p.threads current (p.ancestors current)) : p.Carries e.1 e.2 := by
  obtain ⟨n, hn⟩ : ∃ n, p.ops.size - current.index ≤ n := ⟨_, Nat.le_refl _⟩
  -- outwards, since what an operation lies in has the greater number
  induction n generalizing current with
  | zero => omega
  | succ n ih =>
    cases hparent : p.parentOp? current with
    | none =>
      rw [ancestors_of_none ho hparent] at he
      exact absurd he List.not_mem_nil
    | some loop =>
      rw [hp.ancestors_of_parent ho hparent, threads] at he
      split at he
      · next hc =>
        have hless := hp.nested_lt (hp.mem_nested_iff.2 ⟨ho, hparent⟩)
        rcases List.mem_cons.1 he with rfl | he
        · obtain ⟨carried, hcarried⟩ := Option.isSome_iff_exists.1 hc
          have harg := (Option.filter_eq_some_iff.1 hcarried).1
          rw [carriedArg?] at harg
          split at harg
          · next hloop => exact ⟨ho, hparent, hloop, hc⟩
          · cases harg
        · exact ih (hp.owner_lt hparent) he (by omega)
      · exact absurd he List.not_mem_nil

/-- What makes the initial token stands before the inner loop, the join behind. -/
structure Program.Threads (p : Program) (loop current : OpId) : Prop where
  waiter : ∀ o, p.carriedWaiter? current = some o → o = current ∨ p.isBefore o current = true
  join : ∀ token j, p.completionToken? current = some token → p.yieldJoin? loop = some j →
    j = current ∨ p.isBefore current j = true

instance : Decidable (p.Threads loop current) :=
  decidable_of_iff ((∀ o ∈ p.carriedWaiter? current, o = current ∨ p.isBefore o current = true) ∧
      ∀ token ∈ p.completionToken? current, ∀ j ∈ p.yieldJoin? loop,
        j = current ∨ p.isBefore current j = true)
    ⟨fun h => ⟨h.1, fun token j ht hj => h.2 token ht j hj⟩,
      fun h => ⟨h.waiter, fun token ht j hj => h.join token j ht hj⟩⟩

theorem Program.mem_carriedWaits : (o, v) ∈ p.carriedWaits loop current carried ↔
    p.carriedWaiter? current = some o ∧ v = carried ∨
      p.completionToken? current = some v ∧ p.yieldJoin? loop = some o ∧ o ≠ current := by
  rw [carriedWaits, List.mem_append, List.mem_map]
  refine or_congr ?_ ?_
  · simp only [Option.mem_toList, Prod.mk.injEq]
    constructor
    · rintro ⟨w, hw, rfl, rfl⟩
      exact ⟨hw, rfl⟩
    · rintro ⟨hw, rfl⟩
      exact ⟨o, hw, rfl, rfl⟩
  · cases p.completionToken? current with
    | none => simp
    | some token =>
      cases p.yieldJoin? loop with
      | none => simp
      | some join =>
        by_cases hj : join = current
        · simp only [ne_eq, hj, not_true_eq_false, if_false, List.not_mem_nil, Option.some.injEq,
            false_iff]
          rintro ⟨-, rfl, hne⟩
          exact hne rfl
        · simp only [ne_eq, hj, not_false_eq_true, if_true, List.mem_singleton, Prod.mk.injEq,
            Option.some.injEq]
          constructor
          · rintro ⟨rfl, rfl⟩
            exact ⟨rfl, rfl, hj⟩
          · rintro ⟨rfl, rfl, -⟩
            exact ⟨rfl, rfl⟩

section

variable (hp : p.WellFormed) (h : p.Carries loop current)
include hp h

/-- The carried token is an argument of the block of `current`. -/
theorem Program.WellFormed.carried_mem_args (hc : p.carriedToken? loop = some carried) :
    carried ∈ (p.block (p.op current).parent).args ∧ p.valueType carried = .token := by
  obtain ⟨harg, htype⟩ := Option.filter_eq_some_iff.1 hc
  have hregions : Lowering.bodyRegions (p.kind loop) = [.loop] := by
    have := h.isLoop
    cases hk : p.kind loop <;> simp_all [Lowering.bodyRegions, OpKind.isLoop]
  obtain ⟨b, hb, hbody, -⟩ := hp.regions_eq_singleton (hp.linked.owner_lt h.parent) hregions
  have hparent : (p.op current).parent = b := by
    have := (hp.linked.mem_regions loop (p.op current).parent).2 h.parent
    rwa [hb, List.mem_singleton] at this
  rw [carriedArg?, if_pos h.isLoop, hbody, Option.bind_some] at harg
  refine ⟨hparent ▸ List.mem_of_getElem? harg, ?_⟩
  exact ValueType.isToken_iff.1 htype

/-- Who waits on the carried token is `current`, or makes an operand of the loop `current`. -/
theorem Program.WellFormed.of_carriedWaiter? (ho : p.carriedWaiter? current = some o) :
    (p.kind o).isAsync = true ∧
      (o = current ∨ ∃ a, ReflTransGen p.Outer current a ∧ p.isBefore o a = true) := by
  rw [carriedWaiter?] at ho
  split at ho
  · next hasync =>
    obtain rfl := Option.some.inj ho
    exact ⟨hasync, Or.inl rfl⟩
  · obtain ⟨hdef, hasync⟩ := Option.filter_eq_some_iff.1 ho
    obtain ⟨v, hv, hdef⟩ := Option.bind_eq_some_iff.1 hdef
    have hused := List.mem_append_left (p.op current).deps (List.mem_of_getElem? hv)
    exact ⟨hasync, Or.inr (hp.linked.precedes_of_visible (hp.visible current h.lt v hused) hdef)⟩

/-- The join stands before the yield of the loop, or before an operation around it. -/
theorem Program.WellFormed.of_yieldJoin? (hj : p.yieldJoin? loop = some j) :
    p.kind j = .join ∧ ∃ y a, p.parentOp? y = some loop ∧ y.index < p.ops.size ∧
      ReflTransGen p.Outer y a ∧ p.isBefore j a = true := by
  obtain ⟨hdef, hkind⟩ := Option.filter_eq_some_iff.1 hj
  obtain ⟨v, hv, hdef⟩ := Option.bind_eq_some_iff.1 hdef
  obtain ⟨y, hy, hv⟩ := Option.bind_eq_some_iff.1 hv
  obtain ⟨y', hy', hnested, hyield⟩ :=
    hp.loopYield?_eq_some (hp.linked.owner_lt h.parent) h.isLoop
  obtain rfl := Option.some.inj (hy.symm.trans hy')
  obtain ⟨hylt, hparent⟩ := hp.linked.mem_nested_iff.1 hnested
  have hoperand : v ∈ (p.op y).operands := by
    have hmem := List.mem_of_head? hv
    rw [tokenList, hyield] at hmem
    exact (List.mem_filter.1 hmem).1
  have hused := List.mem_append_left (p.op y).deps hoperand
  obtain ⟨a, ha, hbefore⟩ := hp.linked.precedes_of_visible (hp.visible y hylt v hused) hdef
  exact ⟨of_decide_eq_true hkind, y, a, hparent, hylt, ha, hbefore⟩

/-- Where both stand as they should, what is appended is visible. -/
theorem Program.WellFormed.visible_of_threads (ht : p.Threads loop current)
    (hc : p.carriedToken? loop = some carried) (hv : (o, v) ∈ p.carriedWaits loop current carried) :
    (p.kind o).isAsync = true ∧ p.valueType v = .token ∧ p.Visible o v := by
  rcases mem_carriedWaits.1 hv with ⟨ho, rfl⟩ | ⟨htoken, ho, hne⟩
  · obtain ⟨harg, htype⟩ := hp.carried_mem_args h hc
    refine ⟨(hp.of_carriedWaiter? h ho).1, htype, .arg ?_⟩
    rcases ht.waiter o ho with rfl | hbefore
    · exact harg
    · rwa [(parent_eq_of_isBefore hbefore).1]
  · obtain ⟨hmem, htype⟩ := hp.completionToken?_eq_some h.lt htoken
    refine ⟨by rw [(hp.of_yieldJoin? h ho).1]; rfl, htype, ?_⟩
    exact .result ((ht.join v o htoken ho).resolve_left hne) hmem

/-- Where what is appended is in scope, both stand as they should. -/
theorem Program.WellFormed.threads_of_inScope (hc : p.carriedToken? loop = some carried)
    (hscope : ∀ o v, o.index < p.ops.size → (o, v) ∈ p.carriedWaits loop current carried →
      p.InScope o v) : p.Threads loop current := by
  have houter : ∀ {x a : OpId}, x.index < p.ops.size → p.parentOp? x = some loop →
      ReflTransGen p.Outer x a → a = x ∨ p.Under (fun _ => true) a loop := by
    intro x a hx hparent ha
    rcases ReflTransGen.cases_head ha with rfl | ⟨y, hy, hya⟩
    · exact Or.inl rfl
    · obtain rfl := Option.some.inj (hparent.symm.trans hy.1)
      exact Or.inr (hp.linked.under_of_outer (hp.linked.owner_lt hparent) hya).2
  have hin : ∀ {x : OpId}, p.parentOp? x = some loop → x.index < p.ops.size →
      p.Under (fun _ => true) loop x := fun hparent hx =>
    .single ⟨rfl, hp.linked.mem_nested_iff.2 ⟨hx, hparent⟩⟩
  constructor
  · intro o ho
    obtain ⟨-, rfl | ⟨a, ha, hbefore⟩⟩ := hp.of_carriedWaiter? h ho
    · exact Or.inl rfl
    · refine Or.inr ?_
      obtain ⟨holt, halt⟩ := hp.linked.lt_of_isBefore hbefore
      rcases houter h.lt h.parent ha with rfl | hloop
      · exact hbefore
      · -- outside the loop the carried token is out of scope
        obtain ⟨harg, -⟩ := hp.carried_mem_args h hc
        have hs := hscope o carried holt (mem_carriedWaits.2 (Or.inl ⟨ho, rfl⟩))
        obtain ⟨x, hxlt, hx, hxo⟩ := hs.under hp.linked holt harg h.parent
        exact absurd (hloop.trans ((hin hx hxlt).trans hxo))
          (hp.linked.not_under_of_isBefore hbefore)
  · intro token j htoken hj
    by_cases hne : j = current
    · exact Or.inl hne
    · refine Or.inr ?_
      obtain ⟨-, y, a, hy, hylt, ha, hbefore⟩ := hp.of_yieldJoin? h hj
      obtain ⟨hjlt, halt⟩ := hp.linked.lt_of_isBefore hbefore
      have hs := hscope j token hjlt (mem_carriedWaits.2 (Or.inr ⟨htoken, hj, hne⟩))
      obtain ⟨hmem, -⟩ := hp.completionToken?_eq_some h.lt htoken
      obtain ⟨x, hx, hxj⟩ := hs.isBefore hp.linked hjlt hmem
      obtain ⟨-, hxlt⟩ := hp.linked.lt_of_isBefore hx
      have hxparent : p.parentOp? x = some loop := (parent_eq_of_isBefore hx).2 ▸ h.parent
      rcases houter hylt hy ha with rfl | hloop
      · have hsame : p.parentOp? x = p.parentOp? j :=
          hxparent.trans ((parent_eq_of_isBefore hbefore).2.trans hy).symm
        exact hp.linked.eq_of_under hxlt hsame hxj ▸ hx
      · exact absurd (hloop.trans ((hin hxparent hxlt).trans hxj))
          (hp.linked.not_under_of_isBefore hbefore)

end

/-! ## The whole program -/

/-- Every idle operation is threaded in order through every loop. -/
def Program.ThreadsAll (p : Program) (forced : Option ConflictMode) : Prop :=
  ∀ sink, p.Idle forced sink → ∀ e ∈ p.threads sink (p.ancestors sink), p.Threads e.1 e.2

theorem Program.Idle.lt (h : p.Idle forced sink) : sink.index < p.ops.size := by
  obtain ⟨pre, post, hsinks, -⟩ := h
  exact lt_of_mem_sinks (hsinks ▸ List.mem_append_right _ List.mem_cons_self)

theorem Program.lt_of_mem_deps_traceAll (hv : v ∈ (p.traceAll forced).1.deps o) :
    o.index < p.ops.size :=
  @size_ops_of_strip p (p.traceAll forced).1 (strip_traceAll forced) ▸ lt_of_mem_deps hv

section

variable (hp : p.WellFormed)
include hp

/-- Where idle operations are threaded in order, only asynchronous operations wait, on tokens that
are visible to them. -/
theorem Program.WellFormed.visible_traceAll (ht : p.ThreadsAll forced) (o : OpId) (v : ValueId)
    (hv : v ∈ (p.traceAll forced).1.deps o) :
    (p.kind o).isAsync = true ∧ p.valueType v = .token ∧ p.Visible o v := by
  have ho := lt_of_mem_deps_traceAll hv
  rcases (hp.mem_deps_traceAll ho).1 hv with hv | ⟨hasync, hv⟩ | ⟨sink, hidle, hv⟩
  · exact hp.of_mem_deps hv
  · obtain ⟨c, hbefore, hc⟩ := mem_sinkTokens hv
    obtain ⟨hmem, htype⟩ := hp.completionToken?_eq_some (hp.linked.lt_of_isBefore hbefore).1 hc
    exact ⟨hasync, htype, .result hbefore hmem⟩
  · obtain ⟨e, he, carried, hc, hv⟩ := mem_loopWaits.1 hv
    exact hp.visible_of_threads (carries_of_mem_threads hp.linked hidle.lt he)
      (ht sink hidle e he) hc hv

theorem Program.WellFormed.wellFormed_traceAll (ht : p.ThreadsAll forced) :
    (p.traceAll forced).1.WellFormed :=
  hp.of_strip (strip_traceAll forced) (hp.visible_traceAll ht)

/-- After tracing, everything that is waited on is in scope just if idle operations are threaded
in order. -/
theorem Program.WellFormed.scoped_traceAll_iff :
    (∀ o v, v ∈ (p.traceAll forced).1.deps o → p.InScope o v) ↔ p.ThreadsAll forced := by
  constructor
  · intro h sink hidle e he
    have hcarries := carries_of_mem_threads hp.linked hidle.lt he
    obtain ⟨carried, hc⟩ := Option.isSome_iff_exists.1 hcarries.carried
    refine hp.threads_of_inScope hcarries hc fun o v ho hv => h o v ?_
    exact (hp.mem_deps_traceAll ho).2
      (Or.inr (Or.inr ⟨sink, hidle, mem_loopWaits.2 ⟨e, he, carried, hc, hv⟩⟩))
  · intro ht o v hv
    exact (hp.visible_traceAll ht o v hv).2.2.inScope hp.linked (lt_of_mem_deps_traceAll hv)

end

end AsyncOrder
