import AsyncOrder.Proofs.Rewriting.Dropping

/-!
# Ways through dead computes

A sweep knows who waits on a token, as long as the producer of the token lives, so everybody who
waited on a dead compute inherits what it waited on, and the compute is dropped.
-/

namespace AsyncOrder

open Program Relation

variable {p : Program} {w w' : Sweep} {d o z : OpId} {v token : ValueId} {tokens : List ValueId}
variable {more more' : OpId → ValueId → Prop} {last : OpId → Bool} {c : Context} {t : ScopeTree}

namespace Sweep

/-! ## Who waits -/

theorem mem_waiters : o ∈ w.waiters v ↔ ∃ u ∈ w.uses.get v, u.operand? = none ∧ u.op = o := by
  simp only [waiters, List.mem_filterMap, Option.isNone_iff_eq_none, Option.ite_none_right_eq_some,
    Option.some.injEq]

/-- The uses tell who waits on a token whose producer lives. -/
structure Records (w : Sweep) : Prop where
  size : w.uses.lists.size = w.program.values.size
  mem_waiters : ∀ o v z, w.program.isLive o = true → w.program.definingOp? v = some z →
    w.program.isLive z = true → (o ∈ w.waiters v ↔ v ∈ w.program.deps o)

/-- `w'` is `w` with more dependencies and their uses. -/
structure Adds (more : OpId → ValueId → Prop) (w w' : Sweep) : Prop where
  strip : w'.program.strip false = w.program.strip false
  deps : ∀ z v, w.program.isLive z = true →
    (v ∈ w'.program.deps z ↔ v ∈ w.program.deps z ∨ more z v)
  records : w.Records → w'.Records

theorem Adds.isLive (h : w.Adds more w') (o : OpId) :
    w'.program.isLive o = w.program.isLive o :=
  (rewires_of_strip h.strip).isLive o

theorem Adds.refl (w : Sweep) (hmore : ∀ z v, ¬ more z v) : w.Adds more w :=
  ⟨rfl, fun z v _ => (or_iff_left (hmore z v)).symm, id⟩

theorem Adds.trans {w'' : Sweep} (h : w.Adds more w') (h' : w'.Adds more' w'') :
    w.Adds (fun z v => more z v ∨ more' z v) w'' where
  strip := h'.strip.trans h.strip
  deps z v hz := by rw [h'.deps z v ((h.isLive z).trans hz), h.deps z v hz, or_assoc]
  records hw := h'.records (h.records hw)

theorem adds_wait (ho : w.program.isLive o = true) (htoken : token.index < w.program.values.size) :
    w.Adds (fun z v => z = o ∧ v = token) (w.wait o token) := by
  have hdeps : ∀ z v, v ∈ (w.program.addDep o token).deps z ↔
      v ∈ w.program.deps z ∨ z = o ∧ v = token := fun z v => by
    rw [mem_deps_addDep]
    simp [lt_of_isLive ho]
  rw [wait]
  split
  · have hrewires : w.program.Rewires (w.program.addDep o token) := rewires_of_strip strip_addDep
    refine ⟨strip_addDep, fun z v _ => hdeps z v, fun h => ⟨?_, fun z v y hz hv hy => ?_⟩⟩
    · exact Array.size_modify.trans (h.size.trans (congrArg Array.size hrewires.values).symm)
    · rw [hrewires.isLive] at hz hy
      rw [definingOp?, hrewires.value] at hv
      rw [hdeps, ← h.mem_waiters z v y hz hv hy]
      simp only [mem_waiters, UseMap.mem_get_add]
      constructor
      · rintro ⟨u, hu | ⟨-, rfl, rfl⟩, hnone, rfl⟩
        · exact Or.inl ⟨u, hu, hnone, rfl⟩
        · exact Or.inr ⟨rfl, rfl⟩
      · rintro (⟨u, hu, hnone, rfl⟩ | ⟨rfl, rfl⟩)
        · exact ⟨u, Or.inl hu, hnone, rfl⟩
        · exact ⟨_, Or.inr ⟨h.size.symm ▸ htoken, rfl, rfl⟩, rfl, rfl⟩
  · next hlacks =>
    refine ⟨rfl, fun z v _ => ⟨Or.inl, ?_⟩, id⟩
    rintro (hv | ⟨rfl, rfl⟩)
    · exact hv
    · simpa [lacksDep] using hlacks

theorem adds_foldl {α : Type} {f : Sweep → α → Sweep} {more : α → OpId → ValueId → Prop}
    (l : List α) (hf : ∀ w' : Sweep, w'.program.strip false = w.program.strip false → ∀ a ∈ l,
      w'.Adds (more a) (f w' a)) :
    w.Adds (fun z v => ∃ a ∈ l, more a z v) (l.foldl f w) := by
  induction l using List.reverseRecOn with
  | nil => exact .refl w (by simp)
  | append_singleton l a ih =>
    rw [List.foldl_append]
    have hinit := ih fun w' hw b hb => hf w' hw b (List.mem_append_left _ hb)
    have hlast := hf _ hinit.strip a (List.mem_append_right _ (List.mem_singleton_self a))
    have hboth := hinit.trans hlast
    refine ⟨hboth.strip, fun z v hz => ?_, hboth.records⟩
    rw [List.foldl_cons, List.foldl_nil, hboth.deps z v hz]
    simp [or_and_right, exists_or]

/-- Live operations inherit the tokens. -/
theorem adds_inherit (htokens : ∀ v ∈ tokens, v.index < w.program.values.size) :
    w.Adds (fun z v => z = o ∧ w.program.isLive o = true ∧ v ∈ tokens) (w.inherit tokens o) := by
  rw [inherit]
  split
  · next ho =>
    have hadds : w.Adds (fun z v => ∃ a ∈ tokens, z = o ∧ v = a)
        (tokens.foldl (fun w token => w.wait o token) w) := by
      refine adds_foldl tokens fun w' hw a ha => ?_
      have hrewires := rewires_of_strip hw
      refine adds_wait ((hrewires.isLive o).trans ho) ?_
      rw [hrewires.values]
      exact htokens a ha
    refine ⟨hadds.strip, fun z v hz => ?_, hadds.records⟩
    rw [hadds.deps z v hz]
    simp [ho, and_comm]
  · next ho => exact .refl w fun z v hv => ho hv.2.1

theorem adds_inheritEach (waiters : List OpId)
    (htokens : ∀ v ∈ tokens, v.index < w.program.values.size) :
    w.Adds (fun z v => z ∈ waiters ∧ v ∈ tokens) (waiters.foldl (inherit · tokens) w) := by
  have hadds : w.Adds (fun z v => ∃ a ∈ waiters, z = a ∧ w.program.isLive a = true ∧ v ∈ tokens)
      (waiters.foldl (inherit · tokens) w) := by
    refine adds_foldl _ fun x hx a _ => ?_
    have hrewires := rewires_of_strip hx
    have hinherit : x.Adds (fun z v => z = a ∧ x.program.isLive a = true ∧ v ∈ tokens)
        (x.inherit tokens a) := adds_inherit (by rwa [hrewires.values])
    rwa [hrewires.isLive] at hinherit
  refine ⟨hadds.strip, fun z v hz => ?_, hadds.records⟩
  rw [hadds.deps z v hz]
  simp [hz]

/-! ## One compute -/

/-- A sweep drops what it erases, and goes on knowing who waits. -/
theorem Going.drops (hp : p.WellFormed) (h : Going p w) (hrecords : w.Records)
    (hd : Doomed p w.program d) (hfirst : (p.op d).results.head? = some token) :
    p.Drops w.program d token (w.eraseCompute d).program ∧ (w.eraseCompute d).Records := by
  have hprunes := h.program.prunes
  obtain ⟨results, hresults⟩ := List.head?_eq_some_iff.1 hfirst
  have hdefines : w.program.definingOp? token = some d := by
    rw [hprunes.definingOp?]
    exact (hp.linked.definingOp?_of_result (List.mem_of_head? hfirst)).1
  have hdeps : ∀ v ∈ w.program.deps d, v.index < w.program.values.size := fun v hv =>
    h.program.lt_size_values hp hd.isLive (List.mem_append_right _ hv)
  rw [eraseCompute_eq ((hprunes.results d).trans hresults)]
  generalize hw' : (w.waiters token).foldl (inherit · (w.program.deps d)) w = w'
  have hadds := hw' ▸ adds_inheritEach (w.waiters token) hdeps
  have herase : w'.program.Rewires (w'.program.eraseTokenUses token) := rewires_eraseTokenUses
  have hrewires := (rewires_of_strip hadds.strip).trans herase
  have herased : ∀ o v, w.program.isLive o = true →
      (v ∈ (w'.program.eraseTokenUses token).deps o ↔ v ∈ w'.program.deps o ∧ v ≠ token) := by
    intro o v ho
    rw [deps, eraseTokenUses, op_mapLive, if_pos ((hadds.isLive o).trans ho)]
    simp [deps]
  have hdrops : p.Drops w.program d token ((w'.program.eraseTokenUses token).eraseOp d) := by
    refine hd.drops hp h.program hfirst hrewires
      (fun o => operands_eraseTokenUses.trans (operands_eq_of_strip hadds.strip o)) fun o v ho => ?_
    have hwaits := hrecords.mem_waiters o token d ho hdefines hd.isLive
    rw [herased o v ho, hadds.deps o v ho]
    constructor
    · rintro ⟨hv | ⟨hwaiter, hv⟩, hne⟩
      · exact Or.inl ⟨hv, hne⟩
      · exact Or.inr ⟨hwaits.1 hwaiter, hv⟩
    · rintro (⟨hv, hne⟩ | ⟨hmem, hv⟩)
      · exact ⟨Or.inl hv, hne⟩
      · exact ⟨Or.inr ⟨hwaits.2 hmem, hv⟩,
          fun heq => hd.token_not_mem hp h.program hfirst (heq ▸ hv)⟩
  have hrecords' := hadds.records hrecords
  refine ⟨hdrops, ⟨?_, fun o v z ho hv hz => ?_⟩⟩
  · show _ = ((w'.program.eraseTokenUses token).eraseOp d).values.size
    rw [eraseOp, (tables_erase _ _).2.1]
    exact hrecords'.size
  · have hback : ∀ z, ((w'.program.eraseTokenUses token).eraseOp d).isLive z = true →
        w.program.isLive z = true := fun z hz => ((hdrops.isLive z).1 hz).1
    rw [definingOp?, value_eraseOp, herase.value, ← definingOp?] at hv
    rw [deps_eraseOp, herased o v (hback o ho), ← hrecords'.mem_waiters o v z
      ((hadds.isLive o).trans (hback o ho)) hv ((hadds.isLive z).trans (hback z hz))]
    refine (and_iff_left fun heq => ?_).symm
    rw [heq, definingOp?, (rewires_of_strip hadds.strip).value, ← definingOp?, hdefines] at hv
    obtain rfl := Option.some.inj hv
    rw [hdrops.gone] at hz
    cases hz

/-! ## A whole sweep -/

theorem Going.keeps_foldl (hp : p.WellFormed) (ht : Laid p c [] none (p.funcs.map (·.body)) t)
    {dead : List OpId} (hnodup : dead.Nodup) (h : Going p w) (hrecords : w.Records)
    (hd : ∀ d ∈ dead, Doomed p w.program d) (hstaged : p.Staged w.program) :
    p.Staged (dead.foldl Sweep.eraseCompute w).program ∧
      p.Keeps last w.program (dead.foldl Sweep.eraseCompute w).program := by
  induction dead generalizing w with
  | nil => exact ⟨hstaged, .refl _⟩
  | cons d dead ih =>
    obtain ⟨hnot, hnodup⟩ := List.nodup_cons.1 hnodup
    have hdoomed := hd d List.mem_cons_self
    obtain ⟨hgoing, hstay⟩ := Going.eraseCompute hp h hdoomed
    obtain ⟨token, hfirst⟩ := hdoomed.exists_first h.program.prunes
    obtain ⟨hdrops, hrecords'⟩ := Going.drops hp h hrecords hdoomed hfirst
    obtain ⟨hstaged', hkeeps⟩ := hdrops.keeps hp hdoomed ht hstaged
    obtain ⟨hfinal, hrest⟩ := ih hnodup hgoing hrecords' (fun x hx => hstay x
      (fun heq => hnot (heq ▸ hx)) (hd x (List.mem_cons_of_mem _ hx))) hstaged'
    exact ⟨hfinal, hkeeps.trans hrest⟩

end Sweep

namespace Program

variable {q : Program}

/-- A use map tells who waits on a token. -/
theorem Scoped.records (hp : p.WellFormed) (h : p.Scoped q) :
    Sweep.Records ⟨q, q.useMap⟩ := by
  refine ⟨?_, fun o v z ho hv hz => ?_⟩
  · have key : ∀ (l : List (ValueId × Use)) (m : UseMap),
        (l.foldl (fun m u => m.add u.1 u.2) m).lists.size = m.lists.size := by
      intro l
      induction l with
      | nil => exact fun _ => rfl
      | cons e l ih => exact fun m => (ih _).trans Array.size_modify
    rw [useMap, key]
    exact Array.size_replicate
  · rw [Sweep.mem_waiters]
    constructor
    · rintro ⟨u, hu, hnone, rfl⟩
      obtain ⟨-, hmention⟩ := mem_allUses.1 (mem_useMap.1 hu).2
      rcases (Operation.mem_mentions _).1 hmention with ⟨i, -, hslot⟩ | ⟨i, hi, -⟩
      · rw [Use.operand?, hslot] at hnone
        cases hnone
      · exact List.mem_of_getElem? hi
    · intro hmem
      obtain ⟨i, hi⟩ := List.mem_iff_getElem?.1 hmem
      have hlt := h.lt_size_values hp ho (List.mem_append_right _ hmem)
      exact ⟨⟨o, .dep i⟩, mem_useMap.2 ⟨hlt, mem_allUses.2 ⟨(h.prunes.mem_walk hp).2 ho,
        (Operation.mem_mentions _).2 (Or.inr ⟨i, hi, rfl⟩)⟩⟩, rfl, rfl⟩

/-- Sweeping keeps the ways between what is left. -/
theorem Staged.removeDeadComputes (hp : p.WellFormed)
    (ht : Laid p c [] none (p.funcs.map (·.body)) t) (h : p.Staged q) :
    p.Staged q.removeDeadComputes.1 ∧ p.Keeps last q q.removeDeadComputes.1 := by
  have key : ∀ limit q, p.Staged q → p.Staged (sweepDeadComputes limit q).1 ∧
      p.Keeps last q (sweepDeadComputes limit q).1 := by
    intro limit
    induction limit with
    | zero => exact fun q h => ⟨h, .refl q⟩
    | succ limit ih =>
      intro q h
      rw [sweepDeadComputes]
      split
      · exact ⟨h, .refl q⟩
      · have hscoped := h.program
        obtain ⟨hswept, hkeeps⟩ : _ ∧ p.Keeps last _ _ := Sweep.Going.keeps_foldl hp ht
          ((hscoped.prunes.nodup_walk hp).filter _) (hscoped.going hp) (hscoped.records hp)
          (fun d hd => hscoped.doomed hp hd) h
        obtain ⟨hfinal, hrest⟩ := ih _ hswept
        exact ⟨hfinal, hkeeps.trans hrest⟩
  exact key _ q h

end Program

end AsyncOrder
