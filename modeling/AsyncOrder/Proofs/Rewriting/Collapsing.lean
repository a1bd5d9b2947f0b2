import AsyncOrder.Proofs.Rewriting.Limiting

/-!
# Lists after cleaning up

No pass but the collapsing of joins makes a dependency list name a token twice.  Joins collapse one
after the other, and what is waited on is swapped as they do.  In the end two tokens are swapped
for the same one just if they give way to a common token:

    swap v = swap w ↔ Join (ReflTransGen q.GivesWay) v w                    (Prunes.collapsed_joins)

So a join that waits on several tokens comes to wait on a single one if all of them give way to a
common token.
-/

namespace AsyncOrder

open Program Relation

variable {p q r : Program} {o z j : OpId} {v w token : ValueId} {done ops : List OpId}
variable {swap : ValueId → ValueId}

/-! ## Lists -/

theorem length_eraseDups_eq_one_iff {α : Type} [DecidableEq α] {l : List α} :
    l.eraseDups.length = 1 ↔ l ≠ [] ∧ ∀ a ∈ l, ∀ b ∈ l, a = b := by
  rw [List.length_eq_one_iff]
  constructor
  · rintro ⟨c, hc⟩
    have hall : ∀ a ∈ l, a = c := fun a ha => by
      rw [← List.mem_eraseDups, hc, List.mem_singleton] at ha
      exact ha
    refine ⟨fun hnil => ?_, fun a ha b hb => (hall a ha).trans (hall b hb).symm⟩
    rw [hnil, List.eraseDups_nil] at hc
    cases hc
  · rintro ⟨hne, hall⟩
    obtain ⟨c, hc⟩ := List.exists_mem_of_ne_nil l hne
    have hnodup := nodup_eraseDups l
    have hsame : ∀ a ∈ l.eraseDups, a = c := fun a ha => hall a (List.mem_eraseDups.1 ha) c hc
    rw [List.eq_replicate_of_mem hsame, List.nodup_replicate] at hnodup
    refine ⟨c, ?_⟩
    have hmem : c ∈ l.eraseDups := List.mem_eraseDups.2 hc
    have hpos := List.length_pos_of_mem hmem
    rw [List.eq_replicate_of_mem hsame, show l.eraseDups.length = 1 by omega]
    rfl

/-- Mapping the class of `a` to what `b` is mapped to merges the classes of `a` and `b`. -/
theorem eqvGen_merge {α : Type} [DecidableEq α] {R : α → α → Prop} {f : α → α} {a b : α}
    (hf : ∀ x y, f x = f y ↔ EqvGen R x y) (ha : f a = a) (x y : α) :
    (if f x = a then f b else f x) = (if f y = a then f b else f y) ↔
      EqvGen (fun x y => R x y ∨ x = a ∧ y = b) x y := by
  have hmono : ∀ {x y}, f x = f y → EqvGen (fun x y => R x y ∨ x = a ∧ y = b) x y := fun h =>
    EqvGen.mono (fun _ _ hxy => Or.inl hxy) _ _ ((hf _ _).1 h)
  have hab : EqvGen (fun x y => R x y ∨ x = a ∧ y = b) a b := .rel a b (Or.inr ⟨rfl, rfl⟩)
  constructor
  · intro h
    by_cases hx : f x = a <;> by_cases hy : f y = a
    · exact hmono (hx.trans hy.symm)
    · rw [if_pos hx, if_neg hy] at h
      exact ((hmono (hx.trans ha.symm)).trans _ _ _ hab).trans _ _ _ (hmono h)
    · rw [if_neg hx, if_pos hy] at h
      exact ((hmono h).trans _ _ _ (hab.symm _ _)).trans _ _ _ (hmono (ha.trans hy.symm))
    · rw [if_neg hx, if_neg hy] at h
      exact hmono h
  · intro h
    induction h with
    | rel x y hxy =>
      rcases hxy with hxy | ⟨rfl, rfl⟩
      · rw [(hf x y).2 (.rel x y hxy)]
      · rw [if_pos ha]
        split <;> rfl
    | refl x => rfl
    | symm x y _ ih => exact ih.symm
    | trans x y z _ _ ih ih' => exact ih.trans ih'

namespace Program

/-! ## Lists that name nothing twice -/

/-- What lives waits on every token once. -/
def WaitsOnce (q : Program) : Prop := ∀ o, q.isLive o = true → (q.deps o).Nodup

theorem deps_dedupOps (ops : List OpId) (hnodup : ops.Nodup) (q : Program)
    (hlt : z.index < q.ops.size) :
    (ops.foldl (fun q o => (q.dedupDepsOf o).1) q).deps z =
      if z ∈ ops then (q.deps z).eraseDups else q.deps z := by
  induction ops generalizing q with
  | nil => rfl
  | cons o ops ih =>
    obtain ⟨hnot, hnodup⟩ := List.nodup_cons.1 hnodup
    have hsize : (q.dedupDepsOf o).1.ops.size = q.ops.size := size_ops_of_strip ops_strip_setDeps
    rw [List.foldl_cons, ih hnodup _ (hsize ▸ hlt), dedupDepsOf, deps_setDeps]
    by_cases hz : z = o
    · subst hz
      rw [if_neg hnot, if_pos ⟨rfl, hlt⟩, if_pos List.mem_cons_self]
    · simp only [List.mem_cons, hz, false_or, false_and, if_false]

theorem Prunes.deps_dedupDeps (h : p.Prunes q) (hp : p.WellFormed) (ho : q.isLive o = true) :
    q.dedupDeps.1.deps o = (q.deps o).eraseDups := by
  rw [dedupDeps, changeEach_eq, deps_dedupOps _ (h.nodup_walk hp) q (lt_of_isLive ho),
    if_pos ((h.mem_walk hp).2 ho)]

theorem Prunes.waitsOnce_dedupDeps (h : p.Prunes q) (hp : p.WellFormed) :
    q.dedupDeps.1.WaitsOnce := by
  intro o ho
  rw [(rewires_of_strip strip_dedupDeps).isLive] at ho
  rw [h.deps_dedupDeps hp ho]
  exact nodup_eraseDups _

theorem nodup_deps_addDep (h : (q.deps z).Nodup) : ((q.addDep o token).deps z).Nodup := by
  rw [addDep]
  split
  · exact h
  · next hnot =>
    rw [deps_setDeps]
    split
    · next hz =>
      obtain ⟨rfl, -⟩ := hz
      exact List.nodup_append.2 ⟨h, List.nodup_singleton _, fun a ha b hb =>
        fun heq => hnot (List.mem_singleton.1 hb ▸ heq ▸ ha)⟩
    · exact h

end Program

namespace Sweep

variable {w : Sweep} {d : OpId} {tokens : List ValueId}

theorem nodup_deps_wait (h : (w.program.deps z).Nodup) :
    ((w.wait o token).program.deps z).Nodup := by
  rw [wait]
  split
  · exact nodup_deps_addDep h
  · exact h

theorem nodup_deps_inherit (h : (w.program.deps z).Nodup) :
    ((w.inherit tokens o).program.deps z).Nodup := by
  rw [inherit]
  split
  · exact List.foldlRecOn (motive := fun w : Sweep => (w.program.deps z).Nodup) tokens _ h
      fun _ h _ _ => nodup_deps_wait h
  · exact h

/-- A compute that is erased leaves the lists as they should be. -/
theorem waitsOnce_eraseCompute (hp : p.WellFormed) (h : p.Prunes w.program)
    (honce : w.program.WaitsOnce) (hd : d.index < p.ops.size) (hkind : p.kind d = .compute) :
    p.Prunes (w.eraseCompute d).program ∧ (w.eraseCompute d).program.WaitsOnce := by
  cases hres : (w.program.op d).results with
  | nil =>
    rw [eraseCompute, hres]
    exact ⟨h, honce⟩
  | cons token results =>
    rw [eraseCompute_eq hres]
    let more := (w.waiters token).foldl (inherit · (w.program.deps d)) w
    have hextends : w.Extends (fun _ _ => True) more :=
      extends_foldl (w.waiters token) (fun _ _ _ => extends_inherit fun _ _ => trivial) w
    have herase : w.program.Rewires (more.program.eraseTokenUses token) :=
      (rewires_of_strip hextends.strip).trans rewires_eraseTokenUses
    refine ⟨(h.rewire herase).eraseOp hp.linked (by rwa [herase.size_ops, h.size_ops])
      (by rw [herase.kind, h.kind, hkind]; rfl), fun o ho => ?_⟩
    have hlive := (herase.isLive o).symm.trans (isLive_eraseOp.1 ho).1
    have hmore : (more.program.deps o).Nodup :=
      List.foldlRecOn (motive := fun w : Sweep => (w.program.deps o).Nodup) (w.waiters token) _
        (honce o hlive) fun _ h _ _ => nodup_deps_inherit h
    rw [deps_eraseOp, deps, eraseTokenUses, op_mapLive]
    split
    · exact hmore.filter _
    · exact hmore

end Sweep

namespace Program

/-- Sweeping takes nothing but dead computes out, and no list comes to name a token twice. -/
theorem Prunes.removeDeadComputes (h : p.Prunes q) (hp : p.WellFormed) (honce : q.WaitsOnce) :
    p.Prunes q.removeDeadComputes.1 ∧ q.removeDeadComputes.1.WaitsOnce := by
  have hsweep : ∀ (dead : List OpId) (w : Sweep), p.Prunes w.program → w.program.WaitsOnce →
      (∀ d ∈ dead, d.index < p.ops.size ∧ p.kind d = .compute) →
        p.Prunes (dead.foldl Sweep.eraseCompute w).program ∧
          (dead.foldl Sweep.eraseCompute w).program.WaitsOnce := by
    intro dead
    induction dead with
    | nil => exact fun _ h honce _ => ⟨h, honce⟩
    | cons d dead ih =>
      intro w h honce hdead
      obtain ⟨hd, hkind⟩ := hdead d List.mem_cons_self
      obtain ⟨h, honce⟩ := Sweep.waitsOnce_eraseCompute hp h honce hd hkind
      exact ih _ h honce fun x hx => hdead x (List.mem_cons_of_mem _ hx)
  have key : ∀ limit q, p.Prunes q → q.WaitsOnce → p.Prunes (sweepDeadComputes limit q).1 ∧
      (sweepDeadComputes limit q).1.WaitsOnce := by
    intro limit
    induction limit with
    | zero => exact fun q h honce => ⟨h, honce⟩
    | succ limit ih =>
      intro q h honce
      rw [sweepDeadComputes]
      split
      · exact ⟨h, honce⟩
      · obtain ⟨h, honce⟩ := hsweep (q.deadComputes q.useMap) ⟨q, q.useMap⟩ h honce fun d hd => by
          obtain ⟨hwalk, hdead⟩ := List.mem_filter.1 hd
          rw [isDeadCompute, Bool.and_eq_true, decide_eq_true_eq, h.kind] at hdead
          exact ⟨h.lt ((h.mem_walk hp).1 hwalk), hdead.1⟩
        exact ih _ h honce
  exact key _ q h honce

/-! ## Tokens that give way -/

/-- The live join `j` waits on `w` only, and `v` is its result. -/
structure Forwards (q : Program) (j : OpId) (v w : ValueId) : Prop where
  isLive : q.isLive j = true
  kind : q.kind j = .join
  deps : q.deps j = [w]
  result : v ∈ (q.op j).results

/-- Uses of `v` become uses of `w` when joins collapse. -/
def GivesWay (q : Program) (v w : ValueId) : Prop := ∃ j, q.Forwards j v w

theorem Prunes.results_join (h : p.Prunes q) (hp : p.WellFormed) (ho : q.isLive o = true)
    (hkind : q.kind o = .join) : (∃ v, (q.op o).results = [v]) ∧ p.nested o = [] := by
  rw [h.kind] at hkind
  obtain ⟨-, htypes, hbodies⟩ : OpKind.Shape _ _ _ .join :=
    hkind ▸ (hp.laidOut o (h.lt ho)).2.2
  obtain ⟨v, hv, -⟩ := List.map_eq_singleton_iff.1 htypes
  exact ⟨⟨v, (h.results o).trans hv⟩, by rw [nested, List.map_eq_nil_iff.1 hbodies]; rfl⟩

/-- A token gives way to one token. -/
theorem Prunes.givesWay_unique (h : p.Prunes q) (hp : p.Linked) {w' : ValueId}
    (hw : q.GivesWay v w) (hw' : q.GivesWay v w') : w = w' := by
  obtain ⟨j, hj⟩ := hw
  obtain ⟨j', hj'⟩ := hw'
  obtain rfl := hp.eq_of_mem_results (h.results j ▸ hj.result) (h.results j' ▸ hj'.result)
  exact List.singleton_inj.1 (hj.deps.symm.trans hj'.deps)

/-- Tokens are of one class if they give way to a common one. -/
theorem Prunes.eqvGen_givesWay_iff (h : p.Prunes q) (hp : p.Linked) :
    EqvGen q.GivesWay v w ↔ Join (ReflTransGen q.GivesWay) v w := by
  have hequiv : Equivalence (Join (ReflTransGen q.GivesWay)) :=
    equivalence_join_reflTransGen fun a b c hab hac =>
      ⟨b, .refl, h.givesWay_unique hp hab hac ▸ .refl⟩
  constructor
  · intro hvw
    refine hequiv.eqvGen_iff.1 (EqvGen.mono (fun a b hab => ?_) _ _ hvw)
    exact ⟨b, .single hab, .refl⟩
  · rintro ⟨u, hvu, hwu⟩
    exact (EqvGen.reflTransGen_le_eqvGen _ _ _ hvu).trans _ _ _
      ((EqvGen.reflTransGen_le_eqvGen _ _ _ hwu).symm _ _)

/-! ## Joins that collapse -/

/-- `r` is `q` with those of the joins in `done` collapsed that wait on one token: what they
forward is swapped for what it gives way to. -/
structure Collapsed (p q r : Program) (done : List OpId) (swap : ValueId → ValueId) : Prop where
  prunes : p.Prunes r
  isLive : ∀ z, r.isLive z = true ↔
    q.isLive z = true ∧ ¬ (z ∈ done ∧ q.kind z = .join ∧ (q.deps z).length = 1)
  deps : ∀ z, r.isLive z = true → r.deps z = (q.deps z).map swap
  /-- The result of a join that stays is swapped for no other token. -/
  stays : ∀ z, r.isLive z = true → ∀ v ∈ (q.op z).results, swap v = v
  merges : ∀ v w, swap v = swap w ↔ EqvGen (fun v w => ∃ j ∈ done, q.Forwards j v w) v w

namespace Collapsed

variable (hq : p.Prunes q) (hp : p.WellFormed)
include hq hp

omit hp in
theorem nil : Collapsed p q q [] id where
  prunes := hq
  isLive z := by simp
  deps z _ := (List.map_id _).symm
  stays _ _ _ _ := rfl
  merges v w := by
    refine ⟨fun h => (show v = w from h) ▸ .refl v, fun h => ?_⟩
    induction h with
    | rel x y hxy => exact absurd hxy.choose_spec.1 List.not_mem_nil
    | refl x => rfl
    | symm x y _ ih => exact ih.symm
    | trans x y z _ _ ih ih' => exact ih.trans ih'

/-- One more join. -/
theorem step (h : Collapsed p q r done swap) (ho : q.isLive o = true) (hnot : o ∉ done) :
    ∃ swap', Collapsed p q (r.collapseJoin o).1 (o :: done) swap' := by
  have hlive : r.isLive o = true := (h.isLive o).2 ⟨ho, fun hmem => hnot hmem.1⟩
  have hkind : r.kind o = q.kind o := (h.prunes.kind o).trans (hq.kind o).symm
  have hresults : ∀ z, (r.op z).results = (q.op z).results := fun z =>
    (h.prunes.results z).trans (hq.results z).symm
  by_cases hjoin : q.kind o = .join ∧ (q.deps o).length = 1
  · obtain ⟨w, hw⟩ := List.length_eq_one_iff.1 hjoin.2
    obtain ⟨⟨v, hv⟩, hnested⟩ := hq.results_join hp ho hjoin.1
    have hcollapse : (r.collapseJoin o).1 = (r.replaceUses v (swap w)).eraseOp o := by
      rw [collapseJoin, hlive, hkind, hjoin.1, h.deps o hlive, hw, hresults, hv]
      rfl
    have hrewires : r.Rewires (r.replaceUses v (swap w)) :=
      rewires_mapLive (fun _ => rfl) fun _ => rfl
    have hlt : o.index < (r.replaceUses v (swap w)).ops.size := by
      rw [hrewires.size_ops]
      exact lt_of_isLive hlive
    have hlives : ∀ z, ((r.replaceUses v (swap w)).eraseOp o).isLive z = true ↔
        r.isLive z = true ∧ z ≠ o := fun z => by
      rw [(h.prunes.rewire hrewires).isLive_eraseOp_leaf hp.linked hlt hnested, hrewires.isLive]
    have hself : swap v = v := h.stays o hlive v (hv ▸ List.mem_singleton_self v)
    refine ⟨fun x => if swap x = v then swap w else swap x, hcollapse ▸ ⟨?_, fun z => ?_,
      fun z hz => ?_, fun z hz x hx => ?_, fun x y => ?_⟩⟩
    · exact (h.prunes.rewire hrewires).eraseOp hp.linked hlt
        (by rw [hrewires.kind, hkind, hjoin.1]; rfl)
    · rw [hlives, h.isLive, List.mem_cons]
      by_cases hz : z = o
      · subst hz
        simp [hjoin]
      · simp [hz]
    · obtain ⟨hz, -⟩ := (hlives z).1 hz
      rw [deps_eraseOp, Program.deps, replaceUses, op_mapLive, if_pos hz]
      exact (congrArg _ (h.deps z hz)).trans (List.map_map ..)
    · obtain ⟨hz, hne⟩ := (hlives z).1 hz
      rw [h.stays z hz x hx, if_neg]
      rintro rfl
      exact hne (hp.linked.eq_of_mem_results (hq.results z ▸ hx)
        (hq.results o ▸ hv ▸ List.mem_singleton_self x))
    · have hforwards : ∀ x y, q.Forwards o x y ↔ x = v ∧ y = w := by
        refine fun x y => ⟨fun h => ⟨?_, ?_⟩, ?_⟩
        · exact List.mem_singleton.1 (hv ▸ h.result)
        · exact List.singleton_inj.1 (h.deps.symm.trans hw)
        · rintro ⟨rfl, rfl⟩
          exact ⟨ho, hjoin.1, hw, hv ▸ List.mem_singleton_self x⟩
      rw [eqvGen_merge h.merges hself]
      simp only [List.mem_cons, exists_eq_or_imp, hforwards, or_comm]
  · have hstays : (r.collapseJoin o).1 = r := by
      rcases collapseJoin_cases r o with heq | ⟨input, v, results, -, hk, hdeps, -, -⟩
      · exact heq
      · refine absurd ⟨hkind ▸ hk, ?_⟩ hjoin
        rw [← List.length_map swap, ← h.deps o hlive, hdeps]
        rfl
    have hforwards : ∀ x y, ¬ q.Forwards o x y := fun x y h =>
      hjoin ⟨h.kind, by rw [h.deps]; rfl⟩
    rw [hstays]
    refine ⟨swap, h.prunes, fun z => ?_, h.deps, h.stays, fun x y => ?_⟩
    · rw [h.isLive, List.mem_cons]
      by_cases hz : z = o
      · subst hz
        simp [hjoin, hnot]
      · simp [hz]
    · rw [h.merges]
      simp only [List.mem_cons, exists_eq_or_imp, hforwards, false_or]

theorem foldl (h : Collapsed p q r done swap) (hnodup : ops.Nodup)
    (hops : ∀ o ∈ ops, q.isLive o = true ∧ o ∉ done) :
    ∃ swap', Collapsed p q (ops.foldl (fun q o => (q.collapseJoin o).1) r)
      (ops.reverse ++ done) swap' := by
  induction ops generalizing r done swap with
  | nil => exact ⟨swap, h⟩
  | cons o ops ih =>
    obtain ⟨hnot, hnodup⟩ := List.nodup_cons.1 hnodup
    obtain ⟨ho, hdone⟩ := hops o List.mem_cons_self
    obtain ⟨swap', h'⟩ := h.step hq hp ho hdone
    rw [List.foldl_cons, List.reverse_cons, List.append_assoc]
    refine ih h' hnodup fun z hz => ?_
    obtain ⟨hlive, hz'⟩ := hops z (List.mem_cons_of_mem _ hz)
    refine ⟨hlive, fun hmem => (List.mem_cons.1 hmem).elim (fun heq => hnot (heq ▸ hz)) hz'⟩

end Collapsed

/-- All joins of one token collapse, and two tokens are swapped for the same one just if they give
way to a common token. -/
theorem Prunes.collapsed_joins (hq : p.Prunes q) (hp : p.WellFormed) :
    p.Prunes q.collapseJoins.1 ∧
      (∀ z, q.collapseJoins.1.isLive z = true ↔
        q.isLive z = true ∧ ¬ (q.kind z = .join ∧ (q.deps z).length = 1)) ∧
      ∃ swap : ValueId → ValueId,
        (∀ z, q.collapseJoins.1.isLive z = true →
          q.collapseJoins.1.deps z = (q.deps z).map swap) ∧
        ∀ v w, swap v = swap w ↔ Join (ReflTransGen q.GivesWay) v w := by
  obtain ⟨swap, h⟩ := (Collapsed.nil hq).foldl hq hp (hq.nodup_walk hp)
    fun o ho => ⟨(hq.mem_walk hp).1 ho, List.not_mem_nil⟩
  rw [Program.collapseJoins, changeEach_eq]
  have hmem : ∀ z, z ∈ q.walk.reverse ++ [] ↔ q.isLive z = true := fun z => by
    rw [List.append_nil, List.mem_reverse, hq.mem_walk hp]
  refine ⟨h.prunes, fun z => ?_, swap, h.deps, fun v w => ?_⟩
  · rw [h.isLive, hmem]
    exact and_congr_right fun hz => not_congr (and_iff_right hz)
  · rw [h.merges, ← hq.eqvGen_givesWay_iff hp.linked]
    have hall : (fun v w => ∃ j ∈ q.walk.reverse ++ [], q.Forwards j v w) = q.GivesWay := by
      funext v w
      refine propext (exists_congr fun j => and_iff_right_of_imp fun hj => ?_)
      exact (hmem j).2 hj.isLive
    rw [hall]

/-! ## Dependencies of calls -/

theorem nodup_deps_limitDepsOf (h : (q.deps z).Nodup) : ((q.limitDepsOf o).1.deps z).Nodup := by
  have hmore : ∀ tokens : List ValueId,
      ((tokens.foldl (fun q token => q.addDep o token) q).deps z).Nodup := fun tokens =>
    List.foldlRecOn (motive := fun q : Program => (q.deps z).Nodup) tokens _ h
      fun _ h _ _ => nodup_deps_addDep h
  rw [limitDepsOf]
  split
  · rw [deps_setDeps]
    split
    · next hz => exact (hz.1 ▸ hmore (q.controlTokens o)).filter _
    · exact hmore _
  · exact h

/-- One list is limited, and only that of a call. -/
theorem deps_limitDepsOf_of_ne (hne : waitsOnControl (q.kind o) = true → z ≠ o) :
    (q.limitDepsOf o).1.deps z = q.deps z := by
  rw [limitDepsOf]
  split
  · next ho =>
    have hmore : ∀ tokens : List ValueId,
        (tokens.foldl (fun q token => q.addDep o token) q).deps z = q.deps z := fun tokens =>
      List.foldlRecOn (motive := fun r : Program => r.deps z = q.deps z) tokens _ rfl
        fun r hr token _ => by
        rw [addDep]
        split
        · exact hr
        · rw [deps_setDeps, if_neg fun h => hne ho h.1, hr]
    rw [deps_setDeps, if_neg fun h => hne ho h.1, hmore]
  · rfl

theorem deps_limitDepsOf (hz : waitsOnControl (q.kind z) = false) :
    (q.limitDepsOf o).1.deps z = q.deps z := by
  refine deps_limitDepsOf_of_ne fun ho => ?_
  rintro rfl
  rw [hz] at ho
  cases ho

theorem nodup_deps_limitHierarchyDeps (h : (q.deps z).Nodup) :
    (q.limitHierarchyDeps.1.deps z).Nodup := by
  rw [limitHierarchyDeps, changeEach_eq]
  exact List.foldlRecOn (motive := fun q : Program => (q.deps z).Nodup) q.walk _ h
    fun _ h _ _ => nodup_deps_limitDepsOf h

theorem deps_limitHierarchyDeps (hz : waitsOnControl (q.kind z) = false) :
    q.limitHierarchyDeps.1.deps z = q.deps z := by
  rw [limitHierarchyDeps, changeEach_eq]
  refine (List.foldlRecOn (motive := fun r : Program => waitsOnControl (r.kind z) = false ∧
    r.deps z = q.deps z) q.walk _ ⟨hz, rfl⟩ fun r hr o _ => ⟨?_, ?_⟩).2
  · rw [kind_eq_of_strip strip_limitDepsOf]
    exact hr.1
  · rw [deps_limitDepsOf hr.1, hr.2]

/-! ## All passes -/

/-- After cleaning up nothing waits on a token twice.  A join of one token that is left waited on
several tokens which all give way to a common one. -/
theorem Prunes.cleanup_deps (h : p.Prunes q) (hp : p.WellFormed) :
    let swept := q.dedupDeps.1.removeDeadComputes.1
    swept.WaitsOnce ∧ q.cleanup.1.WaitsOnce ∧
      (∀ o, q.cleanup.1.isLive o = true ↔
        swept.isLive o = true ∧ ¬ (swept.kind o = .join ∧ (swept.deps o).length = 1)) ∧
      ∀ o, q.cleanup.1.isLive o = true → q.cleanup.1.kind o = .join →
        ((q.cleanup.1.deps o).length = 1 ↔ 2 ≤ (swept.deps o).length ∧
          ∀ v ∈ swept.deps o, ∀ w ∈ swept.deps o, Join (ReflTransGen swept.GivesWay) v w) := by
  intro swept
  have hdedup := h.rewire (rewires_of_strip (strip_dedupDeps (q := q)))
  obtain ⟨hswept, honce⟩ : p.Prunes swept ∧ swept.WaitsOnce :=
    hdedup.removeDeadComputes hp (h.waitsOnce_dedupDeps hp)
  obtain ⟨hjoins, hlive, swap, hdeps, hswap⟩ := hswept.collapsed_joins hp
  have hlast : q.cleanup.1 =
      (removeUnusedParams (limitHierarchyDeps (dedupDeps swept.collapseJoins.1).1).1).1 :=
    cleanup_eq q
  have hpasses := passes_removeUnusedParams
    (q := (limitHierarchyDeps swept.collapseJoins.1.dedupDeps.1).1)
  have hlives : ∀ o, q.cleanup.1.isLive o = swept.collapseJoins.1.isLive o := fun o => by
    rw [hlast, hpasses.isLive, isLive_limitHierarchyDeps,
      (rewires_of_strip strip_dedupDeps).isLive]
  refine ⟨honce, fun o ho => ?_, fun o => by rw [hlives, hlive], fun o ho hkind => ?_⟩
  · rw [hlives] at ho
    rw [hlast, hpasses.deps]
    refine nodup_deps_limitHierarchyDeps ?_
    rw [hjoins.deps_dedupDeps hp ho]
    exact nodup_eraseDups _
  · rw [hlives] at ho
    have hdedup' := hjoins.rewire (rewires_of_strip (strip_dedupDeps (q := swept.collapseJoins.1)))
    rw [hlast, hpasses.kind, kind_eq_of_strip strip_limitHierarchyDeps, hdedup'.kind,
      ← hswept.kind] at hkind
    have hlist : q.cleanup.1.deps o = ((swept.deps o).map swap).eraseDups := by
      rw [hlast, hpasses.deps, deps_limitHierarchyDeps, hjoins.deps_dedupDeps hp ho, hdeps o ho]
      rw [hdedup'.kind, ← hswept.kind, hkind]
      rfl
    have hmany : (swept.deps o).length ≠ 1 := fun hone => ((hlive o).1 ho).2 ⟨hkind, hone⟩
    rw [hlist, length_eraseDups_eq_one_iff, ne_eq, List.map_eq_nil_iff, ← List.length_eq_zero_iff]
    refine and_congr (by omega) ?_
    simp only [List.forall_mem_map, hswap]

end Program

end AsyncOrder
