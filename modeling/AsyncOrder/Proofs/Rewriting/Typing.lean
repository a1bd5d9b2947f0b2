import AsyncOrder.Proofs.Dependence.Threading
import AsyncOrder.Proofs.Rewriting.Edits
import AsyncOrder.Proofs.Rewriting.Tidying

/-!
# Layouts through the pipeline

No pass looks at what is in scope to keep operands and results typed.  Each of them takes away
operations that end nothing, puts values in the place of values of the same type, or lets
asynchronous operations wait on tokens:

    p.Typed q → q.LaidOut o for every live o                                    (Typed.laidOut)

So operations are laid out as their kinds ask, and bodies closed by what may close them, whatever
passes have been made and in whatever order (`passes_keep_layouts`).  That is so also where memory
tracing makes operations wait on tokens out of their scope.
-/

namespace AsyncOrder

open Program Relation
open Lowering (Orderly Complete bodyRegions)

variable {p q r : Program} {o z d : OpId} {b : BlockId} {u v w token : ValueId} {i : Nat}
variable {forced : Option ConflictMode} {tokens : List ValueId}

namespace Program

/-- Operations are laid out as their kinds ask, each body is closed by its only terminator, and
bodies of functions have none. -/
structure WellTyped (q : Program) : Prop where
  laidOut : ∀ o, q.isLive o = true → q.LaidOut o
  closed : ∀ o, q.isLive o = true →
    List.Forall₂ (Complete q) (bodyRegions (q.kind o)) (q.op o).regions
  orderly : ∀ f ∈ q.funcs, Orderly q .func f.body

/-- The passes of the pipeline, as opposed to what is done to single operations. -/
def Edit.isPass : Edit → Bool
  | .traceAll _ | .rewriteTokens _ | .dedupDeps | .removeDeadComputes | .collapseJoins
  | .limitHierarchyDeps | .removeUnusedParams => true
  | _ => false

/-! ## Who may wait -/

/-- Asynchronous operations wait, on tokens. -/
def MayWait (p : Program) (o : OpId) (v : ValueId) : Prop :=
  (p.kind o).isAsync = true ∧ p.valueType v = .token

/-- `q` is `p` pruned; what is live is laid out, and what is erased waits on tokens, too. -/
structure Typed (p q : Program) : Prop where
  prunes : p.Prunes q
  waits : ∀ o, ∀ v ∈ q.deps o, p.MayWait o v
  laidOut : ∀ o, q.isLive o = true → q.LaidOut o

theorem WellFormed.typed (hp : p.WellFormed) : p.Typed p where
  prunes := hp.linked.prunes
  waits o _ hv := (hp.laidOut o (lt_of_mem_deps hv)).dep hv
  laidOut o ho := hp.laidOut o (lt_of_isLive ho)

theorem Typed.wellTyped (h : p.Typed q) (hp : p.WellFormed) : q.WellTyped := by
  have hprunes := h.prunes
  refine ⟨h.laidOut, fun o ho => ?_, fun f hf => ?_⟩
  · obtain ⟨hlength, hcomplete⟩ := List.forall₂_iff_zip.1 (hp.complete o (hprunes.lt ho))
    rw [hprunes.kind, hprunes.regions]
    refine List.forall₂_iff_zip.2 ⟨hlength, fun {region b} hmem => ?_⟩
    obtain ⟨y, hy, -⟩ := hprunes.terminator?_eq hp ho (List.of_mem_zip hmem).2
    exact ⟨hprunes.orderly hp.linked (hcomplete hmem).1, by rw [hy]; rfl⟩
  · exact hprunes.orderly hp.linked (hp.orderly f (hprunes.funcs ▸ hf))

theorem Thins.completionToken?_eq (h : p.Thins q) :
    q.completionToken? o = p.completionToken? o := by
  unfold completionToken?
  rw [h.results, h.kind]
  simp only [h.valueType]

theorem WellFormed.completionToken?_type (hp : p.WellFormed) (h : p.completionToken? o = some v) :
    p.valueType v = .token := by
  by_cases ho : o.index < p.ops.size
  · exact (hp.completionToken?_eq_some ho h).2
  · rw [completionToken?, op_of_size_le (Nat.le_of_not_lt ho)] at h
    cases h

namespace Typed

/-! ## Single changes -/

section

variable (h : p.Typed q)
include h

theorem rewire (hr : q.Rewires r)
    (htypes : ∀ o, (r.op o).operands.map p.valueType = (q.op o).operands.map p.valueType)
    (hwaits : ∀ o, ∀ v ∈ r.deps o, p.MayWait o v) : p.Typed r := by
  have htype : q.valueType = p.valueType := funext h.prunes.valueType
  refine ⟨h.prunes.rewire hr, hwaits, fun o ho => ?_⟩
  refine (h.laidOut o (hr.isLive o ▸ ho)).rewire hr (fun z => ?_) fun v hv => ?_
  · rw [htype]
    exact htypes z
  · rw [htype, h.prunes.kind]
    exact hwaits o v hv

/-- Dependency lists may change as long as it is tokens that asynchronous operations wait on. -/
theorem of_strip (hr : r.strip false = q.strip false)
    (hwaits : ∀ o, ∀ v ∈ r.deps o, p.MayWait o v) : p.Typed r :=
  h.rewire (rewires_of_strip hr) (fun o => by rw [operands_eq_of_strip hr]) hwaits

theorem eraseOp (hp : p.WellFormed) (hd : d.index < q.ops.size)
    (hkind : (q.kind d).isTerminator = false) : p.Typed (q.eraseOp d) where
  prunes := h.prunes.eraseOp hp.linked hd hkind
  waits o v hv := h.waits o v (deps_eraseOp ▸ hv)
  laidOut o ho :=
    h.prunes.laidOut_eraseOp hp hd hkind ho (h.laidOut o (isLive_eraseOp.1 ho).1)

theorem removeParam (hp : p.WellFormed) (o : OpId) (i : Nat) : p.Typed (q.removeParam o i) := by
  by_cases hcall : ∃ level ids b, q.kind o = .hierarchy level ids ∧ q.body? o = some b
  · obtain ⟨level, ids, b, hkind, hbody⟩ := hcall
    refine ⟨h.prunes.removeParam hkind hbody hp.linked, fun z v hv => h.waits z v ?_,
      fun z hz => ?_⟩
    · rw [deps, op_removeParam hkind hbody] at hv
      split at hv <;> exact hv
    · have hlive := isLive_removeParam hkind hbody ▸ hz
      exact h.prunes.laidOut_removeParam hkind hbody hp hlive (h.laidOut z hlive)
  · rwa [removeParam_eq_self hcall]

theorem foldl {α : Type} {f : Program → α → Program} {l : List α}
    (hf : ∀ q, p.Typed q → ∀ a ∈ l, p.Typed (f q a)) : p.Typed (l.foldl f q) := by
  induction l generalizing q with
  | nil => exact h
  | cons a l ih =>
    exact ih (hf q h a List.mem_cons_self) fun q hq a ha => hf q hq a (List.mem_cons_of_mem _ ha)

theorem changeEach {change : Program → OpId → Program × Nat}
    (hchange : ∀ q o, p.Typed q → p.Typed (change q o).1) (ops : List OpId) :
    p.Typed (q.changeEach ops change).1 := by
  rw [changeEach_eq]
  exact h.foldl fun q hq o _ => hchange q o hq

end

/-! ## Tracing -/

theorem waitEach {g : Growing} {waits : List (OpId × ValueId)} (h : p.Typed g.program)
    (hwaits : ∀ o v, (o, v) ∈ waits → p.MayWait o v) : p.Typed (g.waitEach waits).program := by
  refine h.of_strip (Growing.strip_waitEach waits g) fun o v hv => ?_
  rcases (Growing.mem_deps_waitEach waits g).1 hv with hv | ⟨-, hv⟩
  · exact h.waits o v hv
  · exact hwaits o v hv

section

variable (hp : p.WellFormed)
include hp

theorem completionToken?_type (h : p.Typed q) (hv : q.completionToken? o = some v) :
    p.valueType v = .token :=
  hp.completionToken?_type (h.prunes.completionToken?_eq ▸ hv)

theorem mayWait_loopWaits (h : p.Typed q) {current : OpId} {ancestors : List OpId}
    (hv : (o, v) ∈ q.loopWaits current ancestors) : p.MayWait o v := by
  obtain ⟨e, -, carried, hcarried, hv⟩ := mem_loopWaits.1 hv
  rcases mem_carriedWaits.1 hv with ⟨hwaiter, rfl⟩ | ⟨htoken, hjoin, -⟩
  · refine ⟨?_, ?_⟩
    · rw [← h.prunes.kind]
      unfold carriedWaiter? at hwaiter
      split at hwaiter
      · next hasync => exact Option.some.inj hwaiter ▸ hasync
      · exact (Option.filter_eq_some_iff.1 hwaiter).2
    · rw [← h.prunes.valueType]
      exact ValueType.isToken_iff.1 (Option.filter_eq_some_iff.1 hcarried).2
  · refine ⟨?_, h.completionToken?_type hp htoken⟩
    have hkind := of_decide_eq_true (Option.filter_eq_some_iff.1 hjoin).2
    rw [← h.prunes.kind, hkind]
    rfl

theorem traceSink {g : Growing} (h : p.Typed g.program) {sink : OpId}
    (hsink : sink.index < p.ops.size) (hasync : (p.kind sink).isAsync = true) :
    p.Typed (g.traceSink forced sink).program := by
  rw [Growing.traceSink_eq forced (h.prunes.size_ops ▸ hsink)]
  refine h.waitEach fun o v hv => ?_
  rcases List.mem_append.1 hv with hv | hv
  · obtain ⟨x, hx, heq⟩ := List.mem_map.1 hv
    obtain ⟨rfl, rfl⟩ := Prod.mk.inj heq
    obtain ⟨c, -, hc⟩ := mem_sinkTokens hx
    exact ⟨hasync, h.completionToken?_type hp hc⟩
  · split at hv
    · exact h.mayWait_loopWaits hp hv
    · exact absurd hv List.not_mem_nil

theorem traced {g : Growing} (h : p.Typed g.program) {sinks : List OpId}
    (hsinks : ∀ o ∈ sinks, o.index < p.ops.size ∧ (p.kind o).isAsync = true) :
    p.Typed (g.traced forced sinks).program := by
  induction sinks generalizing g with
  | nil => exact h
  | cons sink sinks ih =>
    obtain ⟨hsink, hasync⟩ := hsinks sink List.mem_cons_self
    have hstep : p.Typed (g.traceSink forced sink).program := h.traceSink hp hsink hasync
    rw [Growing.traced, List.foldl_cons, ← Growing.traced]
    exact ih hstep fun o ho => hsinks o (List.mem_cons_of_mem _ ho)

theorem traceAll (h : p.Typed q) (forced : Option ConflictMode) :
    p.Typed (q.traceAll forced).1 := by
  have hsinks : ∀ o ∈ q.sinks, o.index < p.ops.size ∧ (p.kind o).isAsync = true := by
    intro o ho
    obtain ⟨hwalk, hasync⟩ := List.mem_filter.1 ho
    rw [h.prunes.kind] at hasync
    exact ⟨h.prunes.lt ((h.prunes.mem_walk hp).1 hwalk), hasync⟩
  exact traced hp h hsinks

/-! ## Lists taken from scopes -/

theorem token_of_mem_fillTokens (h : p.Typed q) {s : Scope} {x : Nat}
    (hv : v ∈ q.fillTokens s x o) : p.valueType v = .token := by
  obtain ⟨u, -, hv⟩ := List.mem_filterMap.1 hv
  obtain ⟨y, -, hv⟩ := Option.bind_eq_some_iff.1 (Option.filter_eq_some_iff.1 hv).1
  have helevated : ∀ producer, q.elevatedToken? producer o = some v → p.valueType v = .token := by
    intro producer hv
    unfold elevatedToken? at hv
    split at hv
    · cases hv
    · exact h.completionToken?_type hp hv
  unfold vertexToken? at hv
  split at hv
  · cases hv
  · cases hv
  · rw [← h.prunes.valueType]
    exact ValueType.isToken_iff.1 (Option.filter_eq_some_iff.1 hv).2
  · obtain ⟨loop, -, hv⟩ := Option.bind_eq_some_iff.1 hv
    exact helevated loop hv
  · obtain ⟨producer, -, hv⟩ := Option.bind_eq_some_iff.1 hv
    exact helevated producer hv

omit hp in
theorem purgeAll (h : p.Typed q) (t : ScopeTree) : p.Typed (q.purgeAll t).1 := by
  rw [purgeAll_eq]
  refine h.foldl fun q h s _ => h.of_strip strip_purge fun o v hv => ?_
  rcases q.deps_purge (s := s) o with hnil | ⟨-, hsame⟩
  · rw [hnil] at hv
    exact absurd hv List.not_mem_nil
  · exact h.waits o v (hsame ▸ hv)

theorem rewriteTokens (h : p.Typed q) (t : ScopeTree) : p.Typed (q.rewriteTokens t).1 := by
  have hpurged := h.purgeAll t
  show p.Typed ((q.purgeAll t).1.fillAll t).1
  refine hpurged.of_strip strip_fillAll fun o v hv => ?_
  rcases mem_deps_fillAll.1 hv with hv | ⟨-, s, -, x, hwaiter, hv⟩
  · exact hpurged.waits o v hv
  · refine ⟨?_, hpurged.token_of_mem_fillTokens hp hv⟩
    rw [← hpurged.prunes.kind]
    exact (mem_waiters.1 hwaiter).2.2

/-! ## Cleaning up -/

omit hp in
theorem dedupDeps (h : p.Typed q) : p.Typed q.dedupDeps.1 :=
  h.of_strip strip_dedupDeps fun o v hv => h.waits o v (mem_deps_dedupDeps.1 hv)

/-- The token of a join gives way to another token. -/
theorem collapseJoin (h : p.Typed q) : p.Typed (q.collapseJoin o).1 := by
  unfold Program.collapseJoin
  split
  · next hjoin =>
    rw [Bool.and_eq_true, decide_eq_true_eq] at hjoin
    obtain ⟨ho, hkind⟩ := hjoin
    split
    · next input result results hdeps hres =>
      have hinput : p.valueType input = .token :=
        (h.waits o input (hdeps ▸ List.mem_cons_self)).2
      have hresult := ((h.laidOut o ho).results_join hkind hres).2
      rw [h.prunes.valueType] at hresult
      have hsame : q.valueType input = q.valueType result := by
        rw [h.prunes.valueType, h.prunes.valueType, hinput, hresult]
      have htypes := types_replaceUses hsame
      rw [funext h.prunes.valueType] at htypes
      have hrewires := rewires_replaceUses (q := q) result input
      have hreplaced := h.rewire hrewires htypes fun z v hv => by
        obtain ⟨w, hw, rfl | ⟨-, rfl⟩⟩ := mem_deps_replaceUses hv
        · exact h.waits z v hw
        · exact ⟨(h.waits z w hw).1, hinput⟩
      have hlt : o.index < (q.replaceUses result input).ops.size :=
        hrewires.size_ops ▸ lt_of_isLive ho
      exact hreplaced.eraseOp hp hlt (by rw [hrewires.kind, hkind]; rfl)
    · exact h
  · exact h

theorem collapseJoins (h : p.Typed q) : p.Typed q.collapseJoins.1 :=
  h.changeEach (fun _ _ h => h.collapseJoin hp) _

omit hp in
theorem token_of_mem_controlTokens (h : p.Typed q) (hv : v ∈ q.controlTokens o) :
    p.valueType v = .token := by
  obtain ⟨s, hs, hpath⟩ := visit_sound (List.mem_filter.1 hv).1
  -- along the way from token to token
  clear hv
  induction hpath with
  | refl => exact (h.waits o s hs).2
  | @tail v w _ hvw ih =>
    obtain ⟨-, d, -, -, hw⟩ := leads_waitsBehind.1 hvw
    exact (h.waits d w hw).2

omit hp in
theorem limitDepsOf (h : p.Typed q) : p.Typed (q.limitDepsOf o).1 := by
  unfold Program.limitDepsOf
  split
  · next hcontrol =>
    obtain ⟨hstrip, hdeps⟩ := Scoped.addDeps (o := o) (q.controlTokens o) q
    refine h.of_strip (ops_strip_setDeps.trans hstrip) fun z v hv => ?_
    have hmem : v ∈ ((q.controlTokens o).foldl (fun q token => q.addDep o token) q).deps z := by
      rw [deps_setDeps] at hv
      split at hv
      · next hzo =>
        rw [hzo.1]
        exact List.mem_of_mem_filter hv
      · exact hv
    rcases hdeps z v hmem with hv | ⟨rfl, hv⟩
    · exact h.waits z v hv
    · refine ⟨?_, h.token_of_mem_controlTokens hv⟩
      rw [← h.prunes.kind]
      exact Scoped.isAsync_of_waitsOnControl hcontrol
  · exact h

omit hp in
theorem limitHierarchyDeps (h : p.Typed q) : p.Typed q.limitHierarchyDeps.1 :=
  h.changeEach (fun _ _ h => h.limitDepsOf) _

theorem removeUnusedParamsOf (h : p.Typed q) : p.Typed (q.removeUnusedParamsOf o).1 := by
  rw [removeUnusedParamsOf_eq]
  refine h.foldl fun q h e _ => ?_
  split
  · exact h
  · exact h.removeParam hp o e.2

theorem removeUnusedParams (h : p.Typed q) : p.Typed q.removeUnusedParams.1 :=
  h.changeEach (fun _ _ h => h.removeUnusedParamsOf hp) _

/-! ## Sweeping -/

/-- The uses as dependencies are of operations that may wait. -/
structure Swept (p : Program) (w : Sweep) : Prop where
  program : p.Typed w.program
  async : ∀ v, ∀ u ∈ w.uses.get v, u.operand? = none → (p.kind u.op).isAsync = true

omit hp in
theorem swept (h : p.Typed q) : Swept p ⟨q, q.useMap⟩ := by
  refine ⟨h, fun v u hu hnone => ?_⟩
  obtain ⟨hop, hmention⟩ := mem_allUses.1 (mem_useMap.1 hu).2
  rcases (Operation.mem_mentions _).1 hmention with ⟨i, -, hslot⟩ | ⟨i, hi, -⟩
  · rw [Use.operand?, hslot] at hnone
    cases hnone
  · exact (h.waits u.op v (List.mem_of_getElem? hi)).1

/-- Who waited on the compute comes to wait on tokens. -/
theorem Swept.eraseCompute {w : Sweep} (h : Swept p w) (hkind : p.kind d = .compute) :
    Swept p (w.eraseCompute d) := by
  cases hres : (w.program.op d).results with
  | nil =>
    rw [Sweep.eraseCompute, hres]
    exact h
  | cons token results =>
    rw [Sweep.eraseCompute_eq hres]
    generalize hw' : (w.waiters token).foldl (Sweep.inherit · (w.program.deps d)) w = w'
    have hext : w.Extends p.MayWait w' := by
      rw [← hw']
      refine Sweep.extends_foldl _ (fun w₀ o ho => Sweep.extends_inherit fun v hv => ?_) w
      obtain ⟨u, hu, hnone, rfl⟩ := Sweep.mem_waiters.1 ho
      exact ⟨h.async token u hu hnone, (h.program.waits d v hv).2⟩
    have hgrown : p.Typed w'.program := h.program.of_strip hext.strip fun o v hv =>
      (hext.deps o v hv).elim (h.program.waits o v) id
    have herase : w'.program.Rewires (w'.program.eraseTokenUses token) := rewires_eraseTokenUses
    have hfreed : p.Typed (w'.program.eraseTokenUses token) :=
      hgrown.rewire herase (fun o => by rw [operands_eraseTokenUses]) fun o v hv =>
        hgrown.waits o v (deps_eraseTokenUses_subset hv)
    have hlt : d.index < (w'.program.eraseTokenUses token).ops.size := by
      rw [hfreed.prunes.size_ops, ← h.program.prunes.size_ops]
      by_contra hle
      rw [op_of_size_le (Nat.le_of_not_lt hle)] at hres
      cases hres
    refine ⟨hfreed.eraseOp hp hlt (by rw [hfreed.prunes.kind, hkind]; rfl), fun v u hu hnone => ?_⟩
    rcases hext.uses v u hu with hu | hwaits
    · exact h.async v u hu hnone
    · exact hwaits.1

theorem Swept.foldl {w : Sweep} (h : Swept p w) {dead : List OpId}
    (hdead : ∀ d ∈ dead, p.kind d = .compute) : Swept p (dead.foldl Sweep.eraseCompute w) := by
  induction dead generalizing w with
  | nil => exact h
  | cons d dead ih =>
    have hstep := Swept.eraseCompute hp h (hdead d List.mem_cons_self)
    exact ih hstep fun x hx => hdead x (List.mem_cons_of_mem _ hx)

theorem removeDeadComputes (h : p.Typed q) : p.Typed q.removeDeadComputes.1 := by
  have hsweep : ∀ limit q, p.Typed q → p.Typed (sweepDeadComputes limit q).1 := by
    intro limit
    induction limit with
    | zero => exact fun q h => h
    | succ limit ih =>
      intro q h
      rw [sweepDeadComputes]
      split
      · exact h
      · refine ih _ (Swept.foldl hp h.swept fun d hd => ?_).program
        have hdead := (List.mem_filter.1 hd).2
        rw [isDeadCompute, Bool.and_eq_true, decide_eq_true_eq] at hdead
        rw [← h.prunes.kind]
        exact hdead.1
  exact hsweep _ q h

/-! ## All passes -/

theorem edit (h : p.Typed q) {e : Edit} (he : e.isPass = true) : p.Typed (q.edit e) := by
  cases e with
  | traceAll forced => exact h.traceAll hp forced
  | rewriteTokens t => exact h.rewriteTokens hp t
  | dedupDeps => exact h.dedupDeps
  | removeDeadComputes => exact h.removeDeadComputes hp
  | collapseJoins => exact h.collapseJoins hp
  | limitHierarchyDeps => exact h.limitHierarchyDeps
  | removeUnusedParams => exact h.removeUnusedParams hp
  | _ => cases he

end

end Typed

end Program

/-- Operands, results and bodies of an accepted program are typed as kinds ask, and remain so
through tracing, through filling lists from any scopes, and through all of cleaning up. -/
theorem passes_keep_layouts {source : String} (hsource : readProgram source = .ok p)
    {passes : List Edit} (hpasses : ∀ e ∈ passes, e.isPass = true) :
    (p.editAll passes).WellTyped := by
  have hp := wellFormed_of_readProgram hsource
  have htyped : p.Typed (p.editAll passes) :=
    hp.typed.foldl fun _ h e he => h.edit hp (hpasses e he)
  exact htyped.wellTyped hp

theorem passes_keep_layouts_everyPass : ∃ p t c reduced, readProgram everyPass = .ok p ∧
    p.scopeTree = .ok (t, c) ∧ (p.resolve c t).tree.stitch.scopes.reduce = .ok reduced ∧
      (p.editAll [.traceAll none, .rewriteTokens reduced, .dedupDeps, .removeDeadComputes,
        .collapseJoins, .limitHierarchyDeps, .removeUnusedParams]).WellTyped := by
  obtain ⟨p, t, c, hsource, hbuild, -⟩ := passes_iff.1
    (show passes everyPass (fun _ _ _ => true) = true by decide +kernel)
  have hp := wellFormed_of_readProgram hsource
  obtain ⟨-, reduced, hreduce, -⟩ := (laid_of_scopeTree hp hbuild).reduced_tree hp
  refine ⟨p, t, c, reduced, hsource, hbuild, hreduce, passes_keep_layouts hsource ?_⟩
  intro e he
  simp only [List.mem_cons, List.not_mem_nil, or_false] at he
  rcases he with rfl | rfl | rfl | rfl | rfl | rfl | rfl <;> rfl

end AsyncOrder
