import AsyncOrder.Proofs.Rewriting.Scoped
import AsyncOrder.Rewriting.Cleanup

/-!
# Sweeping dead computes away

A use map tells what a walk finds; what is added to it in the course of a sweep is a dependency
that has come to be.  A compute is doomed if nothing uses its results but dependency lists its
token, and nothing in it has effects.  Who waited on it sees what it waited on, so the program
stays scoped when it goes:

    w.Going p, d doomed → (w.eraseCompute d).Going p, and what else is doomed stays so
                                                                        (Going.eraseCompute)
-/

namespace AsyncOrder

open Program Relation

variable {p q : Program} {w w' : Sweep} {d o x z : OpId} {v token : ValueId}
variable {tokens : List ValueId} {u u' : Use} {m : UseMap} {s : Slot}

/-! ## Uses -/

theorem Operation.mem_mentions (a : Operation) : (v, s) ∈ a.mentions ↔
    (∃ i, a.operands[i]? = some v ∧ s = .operand i) ∨ ∃ i, a.deps[i]? = some v ∧ s = .dep i := by
  simp only [mentions, List.mem_append, List.mem_mapIdx, Prod.mk.injEq,
    List.getElem?_eq_some_iff]
  constructor
  · rintro (⟨i, hi, rfl, rfl⟩ | ⟨i, hi, rfl, rfl⟩)
    · exact Or.inl ⟨i, ⟨hi, rfl⟩, rfl⟩
    · exact Or.inr ⟨i, ⟨hi, rfl⟩, rfl⟩
  · rintro (⟨i, ⟨hi, rfl⟩, rfl⟩ | ⟨i, ⟨hi, rfl⟩, rfl⟩)
    · exact Or.inl ⟨i, hi, rfl, rfl⟩
    · exact Or.inr ⟨i, hi, rfl, rfl⟩

/-- What an operation uses it mentions. -/
theorem Operation.exists_mention {a : Operation} (hv : v ∈ a.operands ++ a.deps) :
    ∃ s, (v, s) ∈ a.mentions := by
  rcases List.mem_append.1 hv with hv | hv
  · obtain ⟨i, hi⟩ := List.mem_iff_getElem?.1 hv
    exact ⟨.operand i, (mem_mentions a).2 (Or.inl ⟨i, hi, rfl⟩)⟩
  · obtain ⟨i, hi⟩ := List.mem_iff_getElem?.1 hv
    exact ⟨.dep i, (mem_mentions a).2 (Or.inr ⟨i, hi, rfl⟩)⟩

theorem Operation.mem_of_mention {a : Operation} (h : (v, s) ∈ a.mentions) :
    v ∈ a.operands ++ a.deps := by
  rcases (mem_mentions a).1 h with ⟨i, hi, -⟩ | ⟨i, hi, -⟩
  · exact List.mem_append_left _ (List.mem_of_getElem? hi)
  · exact List.mem_append_right _ (List.mem_of_getElem? hi)

theorem Program.mem_allUses : (v, u) ∈ q.allUses ↔
    u.op ∈ q.walk ∧ (v, u.slot) ∈ (q.op u.op).mentions := by
  simp only [allUses, List.mem_flatMap, List.mem_map, Prod.mk.injEq, Prod.exists]
  constructor
  · rintro ⟨o, ho, v, s, hs, rfl, rfl⟩
    exact ⟨ho, hs⟩
  · rintro ⟨ho, hs⟩
    exact ⟨u.op, ho, v, u.slot, hs, rfl, rfl⟩

theorem UseMap.mem_get_add : u ∈ (m.add token u').get v ↔
    u ∈ m.get v ∨ v.index < m.lists.size ∧ v = token ∧ u = u' := by
  rw [get, add, Array.getElem?_modify]
  by_cases hv : v = token
  · subst hv
    rw [if_pos rfl]
    by_cases hlt : v.index < m.lists.size
    · rw [get, Array.getElem?_eq_getElem hlt]
      simp [hlt]
    · rw [get, Array.getElem?_eq_none (Nat.le_of_not_lt hlt)]
      simp [hlt]
  · rw [if_neg fun h => hv (congrArg ValueId.mk h.symm), get]
    simp [hv]

/-- A use map tells the uses that a walk finds. -/
theorem Program.mem_useMap :
    u ∈ q.useMap.get v ↔ v.index < q.values.size ∧ (v, u) ∈ q.allUses := by
  have key : ∀ (l : List (ValueId × Use)) (m : UseMap),
      u ∈ (l.foldl (fun m u => m.add u.1 u.2) m).get v ↔
        u ∈ m.get v ∨ v.index < m.lists.size ∧ (v, u) ∈ l := by
    intro l
    induction l with
    | nil => simp
    | cons e l ih =>
      intro m
      have hsize : (m.add e.1 e.2).lists.size = m.lists.size := Array.size_modify
      rw [List.foldl_cons, ih, UseMap.mem_get_add, hsize, List.mem_cons, Prod.ext_iff, or_assoc,
        ← and_or_left]
  rw [useMap, key]
  have hnone : u ∉ (⟨Array.replicate q.values.size []⟩ : UseMap).get v := by
    rw [UseMap.get, Array.getElem?_replicate]
    split <;> exact List.not_mem_nil
  simp [hnone]

theorem Program.isUsed_iff : q.isUsed v = true ↔ ∃ o ∈ q.walk, v ∈ q.used o := by
  have hempty : (q.uses v).isEmpty = false ↔ ∃ u, u ∈ q.uses v := by
    rw [List.isEmpty_eq_false_iff_exists_mem]
  have hmem : ∀ u, u ∈ q.uses v ↔ (v, u) ∈ q.allUses := by
    intro u
    simp only [uses, List.mem_filterMap, Option.ite_none_right_eq_some, Option.some.injEq,
      Prod.exists]
    constructor
    · rintro ⟨w, u', h, rfl, rfl⟩
      exact h
    · exact fun h => ⟨v, u, h, rfl, rfl⟩
  rw [isUsed, Bool.not_eq_true', hempty]
  simp only [hmem, mem_allUses]
  constructor
  · rintro ⟨u, ho, hs⟩
    exact ⟨u.op, ho, Operation.mem_of_mention hs⟩
  · rintro ⟨o, ho, hv⟩
    obtain ⟨s, hs⟩ := Operation.exists_mention hv
    exact ⟨⟨o, s⟩, ho, hs⟩

/-! ## More dependencies -/

theorem Program.strip_addDep : (q.addDep o token).strip false = q.strip false := by
  rw [addDep]
  split
  · rfl
  · exact ops_strip_setDeps

theorem Program.rewires_eraseTokenUses : q.Rewires (q.eraseTokenUses token) :=
  rewires_mapLive (fun _ => rfl) fun _ => rfl

theorem Program.operands_eraseTokenUses :
    ((q.eraseTokenUses token).op o).operands = (q.op o).operands := by
  rw [eraseTokenUses, op_mapLive]
  split <;> rfl

theorem Program.deps_eraseTokenUses_subset : (q.eraseTokenUses token).deps o ⊆ q.deps o := by
  rw [deps, eraseTokenUses, op_mapLive]
  split
  · exact List.filter_sublist.subset
  · exact List.Subset.refl _

theorem Program.used_eraseTokenUses_subset : (q.eraseTokenUses token).used o ⊆ q.used o := by
  intro v hv
  rcases List.mem_append.1 hv with hv | hv
  · exact List.mem_append_left _ (operands_eraseTokenUses ▸ hv)
  · exact List.mem_append_right _ (deps_eraseTokenUses_subset hv)

theorem Program.not_mem_deps_eraseTokenUses (ho : (q.eraseTokenUses token).isLive o = true) :
    token ∉ (q.eraseTokenUses token).deps o := by
  rw [rewires_eraseTokenUses.isLive] at ho
  rw [deps, eraseTokenUses, op_mapLive, if_pos ho]
  simp

/-- `w'` is `w` with more dependencies, all of them allowed, and their uses. -/
structure Sweep.Extends (allowed : OpId → ValueId → Prop) (w w' : Sweep) : Prop where
  strip : w'.program.strip false = w.program.strip false
  deps : ∀ o, ∀ v ∈ w'.program.deps o, v ∈ w.program.deps o ∨ allowed o v
  uses : ∀ v, ∀ u ∈ w'.uses.get v, u ∈ w.uses.get v ∨ allowed u.op v

namespace Sweep

variable {allowed : OpId → ValueId → Prop}

theorem Extends.trans {w'' : Sweep} (h : w.Extends allowed w') (h' : w'.Extends allowed w'') :
    w.Extends allowed w'' where
  strip := h'.strip.trans h.strip
  deps o v hv := (h'.deps o v hv).elim (h.deps o v) Or.inr
  uses v u hu := (h'.uses v u hu).elim (h.uses v u) Or.inr

theorem extends_foldl {α : Type} {f : Sweep → α → Sweep} (l : List α)
    (hf : ∀ w : Sweep, ∀ a ∈ l, w.Extends allowed (f w a)) (w : Sweep) :
    w.Extends allowed (l.foldl f w) := by
  induction l generalizing w with
  | nil => exact ⟨rfl, fun _ _ => Or.inl, fun _ _ => Or.inl⟩
  | cons a l ih =>
    exact (hf w a List.mem_cons_self).trans
      (ih (fun w b hb => hf w b (List.mem_cons_of_mem _ hb)) _)

theorem extends_wait (h : allowed o token) : w.Extends allowed (w.wait o token) := by
  rw [wait]
  split
  · refine ⟨strip_addDep, fun z v hv => ?_, fun v u hu => ?_⟩
    · exact (mem_deps_addDep.1 hv).imp_right fun ⟨hz, _, hv⟩ => hz ▸ hv ▸ h
    · exact (UseMap.mem_get_add.1 hu).imp_right fun ⟨_, hv, hu⟩ => hu ▸ hv ▸ h
  · exact ⟨rfl, fun _ _ => Or.inl, fun _ _ => Or.inl⟩

theorem extends_inherit (h : ∀ token ∈ tokens, allowed o token) :
    w.Extends allowed (w.inherit tokens o) := by
  rw [inherit]
  split
  · exact extends_foldl _ (fun _ token htoken => extends_wait (h token htoken)) w
  · exact ⟨rfl, fun _ _ => Or.inl, fun _ _ => Or.inl⟩

/-! ## Doomed computes -/

/-- The program is scoped, the uses are of what is visible, and what waits may wait. -/
structure Going (p : Program) (w : Sweep) : Prop where
  program : p.Scoped w.program
  uses : ∀ v, ∀ u ∈ w.uses.get v, p.Visible u.op v
  async : ∀ v, ∀ u ∈ w.uses.get v, u.operand? = none → (p.kind u.op).isAsync = true

/-- The live compute `d` has two results: a token that only dependency lists use, and another
value that is not used.  What lives in it has no effects. -/
structure Doomed (p q : Program) (d : OpId) : Prop where
  isLive : q.isLive d = true
  kind : q.kind d = .compute
  unused : ∃ token result, (q.op d).results = [token, result] ∧
    ∀ o, q.isLive o = true → token ∉ (q.op o).operands ∧ result ∉ q.used o
  within : ∀ x, q.isLive x = true → p.Under (fun _ => true) d x →
    x = d ∨ (q.kind x).isSideEffectFree = true

theorem Doomed.mono {q' : Program} (h : Doomed p q d) (hd : q'.isLive d = true)
    (houtline : ∀ o, (q'.op o).outline = (q.op o).outline)
    (hlive : ∀ o, q'.isLive o = true → q.isLive o = true)
    (hoperands : ∀ o, q'.isLive o = true → (q'.op o).operands = (q.op o).operands)
    (hdeps : ∀ o, q'.isLive o = true → ∀ v ∈ q'.deps o,
      ∃ z, q.isLive z = true ∧ v ∈ q.deps z) : Doomed p q' d := by
  have hkind : ∀ o, q'.kind o = q.kind o := fun o => congrArg (·.kind) (houtline o)
  obtain ⟨token, result, hres, hunused⟩ := h.unused
  refine ⟨hd, (hkind d).trans h.kind, ⟨token, result, ?_, fun o ho => ⟨?_, fun hv => ?_⟩⟩,
    fun x hx hdx => ?_⟩
  · exact (congrArg (·.results) (houtline d)).trans hres
  · rw [hoperands o ho]
    exact (hunused o (hlive o ho)).1
  · rcases List.mem_append.1 hv with hv | hv
    · rw [hoperands o ho] at hv
      exact (hunused o (hlive o ho)).2 (List.mem_append_left _ hv)
    · obtain ⟨z, hz, hv⟩ := hdeps o ho _ hv
      exact (hunused z hz).2 (List.mem_append_right _ hv)
  · rw [hkind]
    exact h.within x (hlive x hx) hdx

/-- A doomed compute may go once nothing waits on its token; what else is doomed stays so. -/
theorem Doomed.eraseOp {r : Program} {results : List ValueId} (hp : p.WellFormed)
    (hd : Doomed p q d) (hr : q.Rewires r) (h : p.Scoped r)
    (hres : (q.op d).results = token :: results)
    (hoperands : ∀ o, (r.op o).operands = (q.op o).operands)
    (hdeps : ∀ o, q.isLive o = true → ∀ v ∈ r.deps o,
      v ≠ token ∧ ∃ z, q.isLive z = true ∧ v ∈ q.deps z) :
    p.Scoped (r.eraseOp d) ∧ ∀ x, x ≠ d → Doomed p q x → Doomed p (r.eraseOp d) x := by
  have hlive : r.isLive d = true := (hr.isLive d).trans hd.isLive
  obtain ⟨token', result, hres', hunused⟩ := hd.unused
  obtain ⟨rfl, rfl⟩ := List.cons.inj (hres'.symm.trans hres)
  refine ⟨h.eraseOp hp hlive (by rw [hr.kind, hd.kind]; rfl) fun o ho v hv hused => ?_,
    fun x hne hx => ?_⟩
  · have ho := hr.isLive o ▸ ho
    rw [hr.results, hres, List.mem_cons, List.mem_singleton] at hv
    rcases List.mem_append.1 hused with hmem | hmem
    · rw [hoperands] at hmem
      rcases hv with rfl | rfl
      · exact (hunused o ho).1 hmem
      · exact (hunused o ho).2 (List.mem_append_left _ hmem)
    · obtain ⟨hne, z, hz, hmem⟩ := hdeps o ho v hmem
      rcases hv with rfl | rfl
      · exact hne rfl
      · exact (hunused z hz).2 (List.mem_append_right _ hmem)
  · have hback : ∀ o, (r.eraseOp d).isLive o = true → q.isLive o = true := fun o ho =>
      hr.isLive o ▸ (isLive_eraseOp.1 ho).1
    refine hx.mono (isLive_eraseOp.2 ⟨(hr.isLive x).trans hx.isLive, fun hmem => ?_⟩)
      (fun o => outline_eraseOp.trans (hr.outline o)) hback
      (fun o _ => operands_eraseOp.trans (hoperands o))
      fun o ho v hv => (hdeps o (hback o ho) v (deps_eraseOp ▸ hv)).2
    -- a compute has effects, so none lies in one that is doomed
    have hunder := h.prunes.under_of_mem_subtree hp.linked (lt_of_isLive hlive) hmem
    rcases hd.within x hx.isLive hunder with rfl | heffect
    · exact hne rfl
    · rw [hx.kind] at heffect
      cases heffect

/-! ## One compute -/

/-- The operations that wait on `token`, going by the uses. -/
def waiters (w : Sweep) (token : ValueId) : List OpId :=
  (w.uses.get token).filterMap fun u => if u.operand?.isNone then some u.op else none

theorem eraseCompute_eq {results : List ValueId}
    (hres : (w.program.op d).results = token :: results) : w.eraseCompute d =
      let w' := (w.waiters token).foldl (inherit · (w.program.deps d)) w
      { w' with program := (w'.program.eraseTokenUses token).eraseOp d } := by
  rw [eraseCompute, hres]
  rfl

section

variable (hp : p.WellFormed) (h : Going p w) (hd : Doomed p w.program d)
include hp h hd

/-- Who waits on a doomed compute sees what the compute waits on. -/
theorem Going.inherits {w' : Sweep} {results : List ValueId}
    (hres : (w.program.op d).results = token :: results)
    (hext : w.Extends (fun o v => o ∈ w.waiters token ∧ v ∈ w.program.deps d) w') :
    Going p w' := by
  have hprunes := h.program.prunes
  have hmem : token ∈ (w.program.op d).results := hres ▸ List.mem_cons_self
  have hwaits : ∀ o ∈ w.waiters token, p.Visible o token ∧ (p.kind o).isAsync = true := by
    intro o ho
    obtain ⟨u, hu, huo⟩ := List.mem_filterMap.1 ho
    split at huo
    · next hnone =>
      obtain rfl := Option.some.inj huo
      exact ⟨h.uses token u hu, h.async token u hu (Option.isNone_iff_eq_none.1 hnone)⟩
    · cases huo
  have hdefines : w.program.definingOp? token = some d := by
    rw [hprunes.definingOp?]
    exact (hp.linked.definingOp?_of_result (hprunes.results d ▸ hmem)).1
  refine ⟨h.program.of_strip hp.linked hext.strip fun o ho v hv => ?_, fun v u hu => ?_,
    fun v u hu hnone => ?_⟩
  · rcases hext.deps o v hv with hv | ⟨hwaiter, hv⟩
    · exact h.program.waits ho hv
    · obtain ⟨hvisible, hasync⟩ := hwaits o hwaiter
      refine ⟨hprunes.kind o ▸ hasync, (h.program.waits hd.isLive hv).2.1, ?_⟩
      refine h.program.inView_trans hp.linked ho ?_ hdefines (List.mem_append_right _ hv)
      exact (hprunes.inView_iff hp.linked ho).2 ⟨hvisible, Or.inr ⟨d, hd.isLive, hmem⟩⟩
  · rcases hext.uses v u hu with hu | ⟨hwaiter, hv⟩
    · exact h.uses v u hu
    · have hview := h.program.wellScoped d hd.isLive v (List.mem_append_right _ hv)
      exact hp.linked.visible_trans (hwaits u.op hwaiter).1 (hprunes.results d ▸ hmem)
        ((hprunes.inView_iff hp.linked hd.isLive).1 hview).1
  · rcases hext.uses v u hu with hu | ⟨hwaiter, -⟩
    · exact h.async v u hu hnone
    · exact (hwaits u.op hwaiter).2

/-- Who waited on the compute inherits what it waited on, and the program stays scoped. -/
theorem Going.eraseCompute : Going p (w.eraseCompute d) ∧
    ∀ x, x ≠ d → Doomed p w.program x → Doomed p (w.eraseCompute d).program x := by
  obtain ⟨token, result, hres, -⟩ := hd.unused
  rw [eraseCompute_eq hres]
  generalize hw' : (w.waiters token).foldl (inherit · (w.program.deps d)) w = w'
  have hext : w.Extends (fun o v => o ∈ w.waiters token ∧ v ∈ w.program.deps d) w' :=
    hw' ▸ extends_foldl _ (fun _ o ho => extends_inherit fun _ hv => ⟨ho, hv⟩) w
  have hgoing := Going.inherits hp h hd hres hext
  have herase : w'.program.Rewires (w'.program.eraseTokenUses token) := rewires_eraseTokenUses
  have hrewires := (rewires_of_strip hext.strip).trans herase
  have hscoped := hgoing.program.rewire hp.linked herase
    (fun _ => by rw [operands_eraseTokenUses])
    (fun o ho v hv => (hgoing.program.laidOut o ho).dep (deps_eraseTokenUses_subset hv))
    fun o ho v hv => hgoing.program.wellScoped o ho v (used_eraseTokenUses_subset hv)
  obtain ⟨herased, hstay⟩ := hd.eraseOp hp hrewires hscoped hres
    (fun o => operands_eraseTokenUses.trans (operands_eq_of_strip hext.strip o))
    fun o ho v hv => by
      refine ⟨?_, ?_⟩
      · rintro rfl
        exact not_mem_deps_eraseTokenUses ((hrewires.isLive o).trans ho) hv
      · rcases hext.deps o v (deps_eraseTokenUses_subset hv) with hv | ⟨-, hv⟩
        · exact ⟨o, ho, hv⟩
        · exact ⟨d, hd.isLive, hv⟩
  exact ⟨⟨herased, hgoing.uses, hgoing.async⟩, hstay⟩

end

/-! ## A whole sweep -/

theorem Going.foldl_eraseCompute (hp : p.WellFormed) {dead : List OpId} (hnodup : dead.Nodup)
    (h : Going p w) (hd : ∀ d ∈ dead, Doomed p w.program d) :
    Going p (dead.foldl Sweep.eraseCompute w) := by
  induction dead generalizing w with
  | nil => exact h
  | cons d dead ih =>
    obtain ⟨hnot, hnodup⟩ := List.nodup_cons.1 hnodup
    obtain ⟨hgoing, hstay⟩ := Going.eraseCompute hp h (hd d List.mem_cons_self)
    refine ih hnodup hgoing fun x hx => hstay x (fun heq => hnot (heq ▸ hx)) ?_
    exact hd x (List.mem_cons_of_mem _ hx)

end Sweep

section

variable (hp : p.WellFormed) (h : p.Scoped q)
include hp h

theorem Program.Scoped.lt_size_values (ho : q.isLive o = true) (hv : v ∈ q.used o) :
    v.index < q.values.size := by
  rw [h.prunes.size_values]
  exact hp.linked.lt_of_visible ((h.prunes.inView_iff hp.linked ho).1 (h.wellScoped o ho v hv)).1

/-- What a program begins with. -/
theorem Program.Scoped.going : Sweep.Going p ⟨q, q.useMap⟩ := by
  refine ⟨h, fun v u hu => ?_, fun v u hu hnone => ?_⟩ <;>
    obtain ⟨hop, hmention⟩ := mem_allUses.1 (mem_useMap.1 hu).2 <;>
    have ho := (h.prunes.mem_walk hp).1 hop
  · exact ((h.prunes.inView_iff hp.linked ho).1
      (h.wellScoped u.op ho v (Operation.mem_of_mention hmention))).1
  · rcases (Operation.mem_mentions _).1 hmention with ⟨i, -, hslot⟩ | ⟨i, hi, -⟩
    · rw [Use.operand?, hslot] at hnone
      cases hnone
    · rw [← h.prunes.kind]
      exact (h.waits ho (List.mem_of_getElem? hi)).1

/-- What is found dead is doomed. -/
theorem Program.Scoped.doomed (hd : d ∈ q.deadComputes q.useMap) : Sweep.Doomed p q d := by
  obtain ⟨hwalk, hdead⟩ := List.mem_filter.1 hd
  have hlive := (h.prunes.mem_walk hp).1 hwalk
  rw [isDeadCompute, Bool.and_eq_true, decide_eq_true_eq] at hdead
  obtain ⟨hkind, hdead⟩ := hdead
  split at hdead
  · next token result hres =>
    rw [Bool.and_eq_true, Bool.and_eq_true, List.isEmpty_iff, List.all_eq_true,
      List.all_eq_true] at hdead
    obtain ⟨⟨hempty, hdeps⟩, heffects⟩ := hdead
    refine ⟨hlive, hkind, ⟨token, result, hres, fun o ho => ⟨fun hv => ?_, fun hv => ?_⟩⟩,
      fun x hx hunder => ?_⟩
    · obtain ⟨i, hi⟩ := List.mem_iff_getElem?.1 hv
      have hlt := h.lt_size_values hp ho (List.mem_append_left _ hv)
      have huse : ⟨o, .operand i⟩ ∈ q.useMap.get token := mem_useMap.2 ⟨hlt, mem_allUses.2
        ⟨(h.prunes.mem_walk hp).2 ho, (Operation.mem_mentions _).2 (Or.inl ⟨i, hi, rfl⟩)⟩⟩
      exact absurd (hdeps _ huse) Bool.false_ne_true
    · have hlt := h.lt_size_values hp ho hv
      obtain ⟨s, hs⟩ := Operation.exists_mention hv
      have huse : ⟨o, s⟩ ∈ q.useMap.get result := mem_useMap.2 ⟨hlt, mem_allUses.2
        ⟨(h.prunes.mem_walk hp).2 ho, hs⟩⟩
      rw [hempty] at huse
      exact List.not_mem_nil huse
    · obtain ⟨b, hb, hbody, -⟩ := hp.regions_eq_singleton (h.prunes.lt hlive) (r := .compute)
        (by rw [← h.prunes.kind, hkind]; rfl)
      obtain ⟨-, hpath⟩ := h.prunes.live_path hp.linked hx hunder
      rcases ReflTransGen.cases_head hpath with rfl | ⟨y, ⟨hy, hylive⟩, hyx⟩
      · exact Or.inl rfl
      · refine Or.inr (heffects x ?_)
        have hlt := lt_of_isLive hylive
        rw [nested, h.prunes.regions, hb, List.flatMap_singleton] at hy
        rw [body?, h.prunes.regions, hb]
        refine mem_walkFrom (fun z o ho => hp.linked.nested_lt (h.prunes.nested_sublist.subset ho))
          hy ?_ hylive hyx
        rw [walkDepth]
        omega
  · cases hdead

end

/-- Sweeping keeps the program scoped. -/
theorem Program.Scoped.removeDeadComputes (hp : p.WellFormed) (h : p.Scoped q) :
    p.Scoped q.removeDeadComputes.1 := by
  have key : ∀ limit q, p.Scoped q → p.Scoped (sweepDeadComputes limit q).1 := by
    intro limit
    induction limit with
    | zero => exact fun q h => h
    | succ limit ih =>
      intro q h
      rw [sweepDeadComputes]
      split
      · exact h
      · refine ih _ ?_
        exact (Sweep.Going.foldl_eraseCompute hp ((h.prunes.nodup_walk hp).filter _) (h.going hp)
          fun d hd => h.doomed hp hd).program
  exact key _ q h

end AsyncOrder
