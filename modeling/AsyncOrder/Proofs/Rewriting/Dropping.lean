import AsyncOrder.Proofs.Rewriting.Rerouting

/-!
# Dead computes are dropped

`p.Drops q d token r` says what is left when the doomed compute `d` goes, whose first result is
`token`: who waited on the token waits on what `d` waited on.  It does not say in what order, or how
often, so a sweep drops what it erases, and so does any other way of handing the list on.

    d doomed in q, r as q but for the lists → p.Drops q d token (r.eraseOp d)       (Doomed.drops)

A compute that is dropped is bypassed (`Drops.bypasses`), so paths and ways between what is left stay
the same (`Drops.contracts`, `Drops.keeps`).
-/

namespace AsyncOrder

open Program Relation

variable {p q r : Program} {d o x z : OpId} {v token : ValueId} {last : OpId → Bool}
variable {c : Context} {t : ScopeTree}

/-- `r` is `q` without `d` and what is in it: who waited on the token waits on what `d` waited
on. -/
structure Program.Drops (p q : Program) (d : OpId) (token : ValueId) (r : Program) : Prop where
  program : p.Scoped r
  first : (p.op d).results.head? = some token
  isLive : ∀ o, r.isLive o = true ↔ q.isLive o = true ∧ ¬ p.Under (fun _ => true) d o
  operands : ∀ o, r.isLive o = true → (r.op o).operands = (q.op o).operands
  deps : ∀ o v, r.isLive o = true → (v ∈ r.deps o ↔
    v ∈ q.deps o ∧ v ≠ token ∨ token ∈ q.deps o ∧ v ∈ q.deps d)

/-- Erases `d`; whoever waits on its first result is handed what it waits on. -/
def Program.dropCompute (q : Program) (d : OpId) : Program :=
  match (q.op d).results with
  | [] => q
  | token :: _ =>
    (q.mapLive fun o =>
      if token ∈ o.deps then { o with deps := o.deps.filter (· ≠ token) ++ q.deps d }
      else o).eraseOp d

namespace Sweep

theorem Doomed.exists_first (hd : Doomed p q d) (h : p.Prunes q) :
    ∃ token, (p.op d).results.head? = some token := by
  obtain ⟨token, result, hres, -⟩ := hd.unused
  exact ⟨token, by rw [← h.results, hres, List.head?_cons]⟩

section

variable (hp : p.WellFormed) (h : p.Scoped q) (hd : Doomed p q d)
include hp h hd

/-- No compute waits on itself. -/
theorem Doomed.token_not_mem (hfirst : (p.op d).results.head? = some token) :
    token ∉ q.deps d := fun hmem =>
  hp.linked.not_visible_self (h.prunes.lt hd.isLive) (List.mem_of_head? hfirst)
    ((h.prunes.inView_iff hp.linked hd.isLive).1
      (h.wellScoped d hd.isLive token (List.mem_append_right _ hmem))).1

/-- Whatever is left when the list of a doomed compute is handed on, the compute is dropped. -/
theorem Doomed.drops (hfirst : (p.op d).results.head? = some token) (hr : q.Rewires r)
    (hoperands : ∀ o, (r.op o).operands = (q.op o).operands)
    (hdeps : ∀ o v, q.isLive o = true → (v ∈ r.deps o ↔
      v ∈ q.deps o ∧ v ≠ token ∨ token ∈ q.deps o ∧ v ∈ q.deps d)) :
    p.Drops q d token (r.eraseOp d) := by
  obtain ⟨results, hresults⟩ := List.head?_eq_some_iff.1 hfirst
  have hres : (q.op d).results = token :: results := (h.prunes.results d).trans hresults
  have hdefines : q.definingOp? token = some d := by
    rw [h.prunes.definingOp?]
    exact (hp.linked.definingOp?_of_result (List.mem_of_head? hfirst)).1
  have hwaits : ∀ o, q.isLive o = true → ∀ v ∈ r.deps o,
      (q.kind o).isAsync = true ∧ q.valueType v = .token ∧ q.InView o v := by
    intro o ho v hv
    rcases (hdeps o v ho).1 hv with ⟨hv, -⟩ | ⟨hmem, hv⟩
    · exact h.waits ho hv
    · obtain ⟨hasync, -, hview⟩ := h.waits ho hmem
      exact ⟨hasync, (h.waits hd.isLive hv).2.1,
        h.inView_trans hp.linked ho hview hdefines (List.mem_append_right _ hv)⟩
  have hscoped : p.Scoped r := by
    refine h.rewire hp.linked hr (fun o => by rw [hoperands])
      (fun o ho v hv => ⟨(hwaits o ho v hv).1, (hwaits o ho v hv).2.1⟩) fun o ho v hv => ?_
    rcases List.mem_append.1 hv with hv | hv
    · exact h.wellScoped o ho v (List.mem_append_left _ (hoperands o ▸ hv))
    · exact (hwaits o ho v hv).2.2
  have hlive : r.isLive d = true := (hr.isLive d).trans hd.isLive
  have hback : ∀ o, (r.eraseOp d).isLive o = true → q.isLive o = true := fun o ho =>
    hr.isLive o ▸ (isLive_eraseOp.1 ho).1
  obtain ⟨herased, -⟩ := hd.eraseOp hp hr hscoped hres hoperands fun o ho v hv => by
    rcases (hdeps o v ho).1 hv with ⟨hv, hne⟩ | ⟨-, hv⟩
    · exact ⟨hne, o, ho, hv⟩
    · exact ⟨fun heq => hd.token_not_mem hp h hfirst (heq ▸ hv), d, hd.isLive, hv⟩
  have hgone : (r.eraseOp d).isLive d = false := Bool.eq_false_iff.2 fun hlive' =>
    (isLive_eraseOp.1 hlive').2
      ((hscoped.prunes.mem_subtree hp.linked (lt_of_isLive hlive)).2 .refl)
  refine ⟨herased, hfirst, fun o => ⟨fun ho => ⟨hback o ho, fun hunder => ?_⟩, ?_⟩,
    fun o _ => operands_eraseOp.trans (hoperands o),
    fun o v ho => ?_⟩
  · exact Bool.eq_false_iff.1 (herased.prunes.not_isLive_of_under hp.linked hgone hunder) ho
  · rintro ⟨ho, hunder⟩
    exact isLive_eraseOp.2 ⟨(hr.isLive o).trans ho, fun hmem => hunder
      (hscoped.prunes.under_of_mem_subtree hp.linked (lt_of_isLive hlive) hmem)⟩
  · rw [deps_eraseOp]
    exact hdeps o v (hback o ho)

theorem Doomed.drops_dropCompute (hfirst : (p.op d).results.head? = some token) :
    p.Drops q d token (q.dropCompute d) := by
  obtain ⟨results, hresults⟩ := List.head?_eq_some_iff.1 hfirst
  rw [dropCompute, (h.prunes.results d).trans hresults]
  have hrewires := rewires_mapLive (q := q) (f := fun o => if token ∈ o.deps then
    { o with deps := o.deps.filter (· ≠ token) ++ q.deps d } else o)
    (fun o => by split <;> rfl) fun o => by split <;> rfl
  refine hd.drops hp h hfirst hrewires (fun o => ?_) fun o v ho => ?_
  · rw [op_mapLive]
    split
    · split <;> rfl
    · rfl
  · rw [deps, op_mapLive, if_pos ho]
    by_cases hmem : token ∈ q.deps o
    · rw [if_pos (show token ∈ (q.op o).deps from hmem), List.mem_append, List.mem_filter,
        decide_eq_true_eq, and_iff_right hmem]
      rfl
    · rw [if_neg (show token ∉ (q.op o).deps from hmem)]
      refine ⟨fun hv => Or.inl ⟨hv, fun heq => hmem (heq ▸ hv)⟩, ?_⟩
      rintro (⟨hv, -⟩ | ⟨htoken, -⟩)
      · exact hv
      · exact absurd htoken hmem

omit h in
/-- What is in a dead compute produces nothing. -/
theorem Doomed.producer {x : ValueId} (hprunes : p.Prunes q) (hne : o ≠ d)
    (hlive : q.isLive o = true) (hunder : p.Under (fun _ => true) d o) :
    q.producerOp? x ≠ some o := by
  intro hx
  have hfree : ∀ a, a ≠ d → q.isLive a = true → p.Under (fun _ => true) d a →
      (q.kind a).isLoop = false ∧ (q.kind a).isAsync = false := by
    intro a ha halive hda
    rcases hd.within a halive hda with rfl | heffect
    · exact absurd rfl ha
    · cases hk : q.kind a <;>
        simp_all [OpKind.isSideEffectFree, OpKind.isLoop, OpKind.isAsync]
  obtain ⟨hloop, hasync⟩ := hfree o hne hlive hunder
  rcases producerOp?_cases hx with hkind | ⟨-, hkind⟩ | ⟨z, hkind, hyield⟩
  · rw [hloop] at hkind
    cases hkind
  · rw [hasync] at hkind
    cases hkind
  · -- the loop that it ends lies in the compute, too
    obtain ⟨b, hb, hterm⟩ := Option.bind_eq_some_iff.1 hyield
    have hparent := (hp.linked.mem_nested_iff.1 (hprunes.nested_sublist.subset
      (List.mem_flatMap.2 ⟨b, List.mem_of_head? hb, (WellFormed.mem_ops_of_terminator? hterm).1⟩))).2
    rcases ReflTransGen.cases_tail hunder with rfl | ⟨y, hdy, -, hyo⟩
    · exact hne rfl
    · obtain rfl := Option.some.inj ((hp.linked.mem_nested_iff.1 hyo).2.symm.trans hparent)
      have hylive := hprunes.around o y hlive ((hprunes.parentOp? o).trans hparent)
      by_cases hyd : y = d
      · rw [hyd, hd.kind] at hkind
        cases hkind
      · rw [(hfree y hyd hylive hdy).1] at hkind
        cases hkind

end

end Sweep

namespace Program

variable (hp : p.WellFormed) (h : p.Scoped q) (hd : Sweep.Doomed p q d)
variable (hr : p.Drops q d token r)

/-- What is dropped is gone. -/
theorem Drops.gone (hr : p.Drops q d token r) : r.isLive d = false :=
  Bool.eq_false_iff.2 fun hlive => ((hr.isLive d).1 hlive).2 .refl

include hp h hd hr

/-- A compute that is dropped is bypassed. -/
theorem Drops.bypasses : q.Bypasses r d token := by
  obtain ⟨token', result, hres, hunused⟩ := hd.unused
  obtain rfl : token' = token := by
    have htoken := hr.first
    rw [← h.prunes.results, hres] at htoken
    exact Option.some.inj htoken
  have hback : ∀ o, r.isLive o = true → q.isLive o = true := fun o ho => ((hr.isLive o).1 ho).1
  have hprunes := h.prunes
  have hasync : (p.kind d).isAsync = true := by rw [← hprunes.kind, hd.kind]; rfl
  obtain ⟨hproducer, hyields⟩ :=
    hprunes.producerOp?_result hp.linked (List.mem_of_head? hr.first) hasync
  have hlist : ∀ q, p.Prunes q → ∀ o, (p.kind o).isAsync = true → q.tokenList o = q.deps o :=
    fun q h o ho => tokenList_of_isAsync ((h.kind o).symm ▸ ho)
  refine ⟨hd.isLive, hr.gone, hback, fun a x hne ha hx => ?_, hproducer, hyields,
    fun o v ho => ?_, fun o v x ho hv => ?_⟩
  · exact (hr.isLive a).2 ⟨ha, fun hunder => hd.producer hp hprunes hne ha hunder hx⟩
  · rw [hlist _ hprunes d hasync]
    by_cases ho' : (p.kind o).isAsync = true
    · rw [hlist _ hprunes o ho', hlist _ hr.program.prunes o ho']
      exact hr.deps o v ho
    · have hsame : v ∈ r.tokenList o ↔ v ∈ q.tokenList o := by
        rw [mem_tokenList_iff, mem_tokenList_iff, hr.program.prunes.kind, hprunes.kind,
          hr.program.prunes.valueType, hprunes.valueType, hr.operands o ho]
        simp [ho']
      have hnot : token' ∉ q.tokenList o := fun hmem => by
        rcases mem_tokenList_iff.1 hmem with ⟨hkind, -⟩ | ⟨-, ⟨-, hmem⟩ | ⟨-, hmem⟩⟩
        · exact ho' (hprunes.kind o ▸ hkind)
        · exact (hunused o (hback o ho)).1 (List.drop_subset _ _ hmem)
        · exact (hunused o (hback o ho)).1 hmem
      rw [hsame]
      refine ⟨fun hv => Or.inl ⟨hv, fun heq => hnot (heq ▸ hv)⟩, ?_⟩
      rintro (⟨hv, -⟩ | ⟨htoken, -⟩)
      · exact hv
      · exact absurd htoken hnot
  · have hsame := yieldedBy_congr h hr.program hp hback (fun o ho _ => hr.operands o ho) hv
    have hnot : token' ∉ q.yieldedBy v := fun hmem => by
      obtain ⟨-, y, -, -, -, hylive, hmem⟩ := hr.program.yielded_operand hp hv (hsame ▸ hmem)
      exact (hunused y (hback y hylive)).1 (hr.operands y hylive ▸ hmem)
    rw [hsame]
    refine ⟨fun hx => Or.inl ⟨hx, fun heq => hnot (heq ▸ hx)⟩, ?_⟩
    rintro (⟨hx, -⟩ | ⟨htoken, -⟩)
    · exact hx
    · exact absurd htoken hnot

/-- Ways and paths lead past a compute that is dropped, whatever holds them. -/
theorem Drops.contracts (last : OpId → Bool) (ht : Laid p c [] none (p.funcs.map (·.body)) t) :
    Contracts (fun o => r.isLive o = true) (fun o => waitsOnControl (p.kind o) = true) d
      (q.Steps fun _ => True) (q.Steps (p.Holds last)) (r.Steps fun _ => True)
      (r.Steps (p.Holds last)) := by
  have hkind : p.kind d = .compute := by rw [← h.prunes.kind, hd.kind]
  refine (hr.bypasses hp h hd).contracts h hr.program hp
    (h.not_awaits_self hp ht hd.isLive (by rw [hkind]; rfl)) (fun hholds => ?_) (by rw [hkind]; rfl)
  obtain ⟨hdefines, hcarried⟩ := hp.linked.definingOp?_of_result (List.mem_of_head? hr.first)
  have hcontrol := hholds.1
  rw [isControlToken, hcarried, hdefines, Option.map_some, hkind] at hcontrol
  cases hcontrol

omit h in
/-- Dropping a dead compute keeps the ways between what is left. -/
theorem Drops.keeps (ht : Laid p c [] none (p.funcs.map (·.body)) t) (h : p.Staged q) :
    p.Staged r ∧ p.Keeps last q r := by
  refine ⟨⟨hr.program, fun o ho v hv => ?_⟩, fun o ho => ((hr.isLive o).1 ho).1,
    fun a b isHeld ha hb => (hr.contracts hp h.program hd last ht).way_iff ha hb⟩
  rcases (hr.deps o v ho).1 hv with ⟨hv, -⟩ | ⟨-, hv⟩
  · exact h.tokens o ((hr.isLive o).1 ho).1 v hv
  · exact h.tokens d hd.isLive v hv

end Program

end AsyncOrder
