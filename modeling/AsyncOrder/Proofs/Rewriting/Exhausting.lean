import AsyncOrder.Proofs.Rewriting.Exchanging
import AsyncOrder.Proofs.Rewriting.Inheriting

/-!
# Until nothing is dead

A sweep erases what was dead when it began, going by uses that it patches.  Erasing one dead compute
at a time, with all uses found anew before each, comes to the same:

    q.sweepDeadComputes erases as many computes as some run from q drops, and ends where the
    run ends, at the latest when the limit is reached                     (Scoped.exists_run)
    q.OneByOne ds r  →  the run p.DropsAll q ds r                         (OneByOne.dropsAll)

No run is longer than the program, so the limit of `removeDeadComputes` is never reached.
-/

namespace AsyncOrder

open Program Relation

variable {p q r : Program} {d o z : OpId} {v : ValueId} {ds : List OpId} {w : Sweep}
variable {limit : Nat}

/-! ## What is found dead -/

/-- What is found dead is what is doomed. -/
theorem Program.Scoped.mem_deadComputes_iff (h : p.Scoped q) (hp : p.WellFormed) :
    d ∈ q.deadComputes q.useMap ↔ Sweep.Doomed p q d := by
  refine ⟨fun hd => h.doomed hp hd, fun hd => ?_⟩
  obtain ⟨token, result, hres, hunused⟩ := hd.unused
  have hused : ∀ {v u}, u ∈ q.useMap.get v →
      q.isLive u.op = true ∧ (v, u.slot) ∈ (q.op u.op).mentions := fun hu =>
    (mem_allUses.1 (mem_useMap.1 hu).2).imp_left (h.prunes.mem_walk hp).1
  rw [deadComputes, List.mem_filter, isDeadCompute, hres, Bool.and_eq_true, decide_eq_true_eq]
  refine ⟨(h.prunes.mem_walk hp).2 hd.isLive, hd.kind, ?_⟩
  rw [Bool.and_eq_true, Bool.and_eq_true, List.isEmpty_iff, List.all_eq_true, List.all_eq_true]
  refine ⟨⟨List.eq_nil_iff_forall_not_mem.2 fun u hu => ?_, fun u hu => ?_⟩, fun x hx => ?_⟩
  · obtain ⟨hlive, hmention⟩ := hused hu
    exact (hunused u.op hlive).2 (Operation.mem_of_mention hmention)
  · obtain ⟨hlive, hmention⟩ := hused hu
    rcases (Operation.mem_mentions _).1 hmention with ⟨i, hi, -⟩ | ⟨i, -, hslot⟩
    · exact absurd (List.mem_of_getElem? hi) (hunused u.op hlive).1
    · rw [Use.operand?, hslot, Option.isNone_none]
  · cases hbody : q.body? d with
    | none =>
      rw [hbody] at hx
      exact absurd hx List.not_mem_nil
    | some b =>
      rw [hbody, Option.map_some, Option.getD_some] at hx
      obtain ⟨y, hy, hyx⟩ := under_of_mem_walkFrom hx
      have hnested : y ∈ q.nested d := List.mem_flatMap.2 ⟨b, List.mem_of_head? hbody, hy⟩
      have hdy : y ∈ p.nested d := h.prunes.nested_sublist.subset hnested
      have hyx : p.Under (fun _ => true) y x :=
        ReflTransGen.mono (fun _ _ hz => ⟨rfl, h.prunes.nested_sublist.subset hz.2⟩) _ _ hyx
      rcases hd.within x (isLive_of_mem_walkFrom hx) (.head ⟨rfl, hdy⟩ hyx) with rfl | heffect
      · -- nothing lies in itself
        have hlt := hp.linked.nested_lt hdy
        have hle := hyx.index_le hp.linked
        omega
      · exact heffect

theorem Program.Scoped.deadComputes_eq_nil_iff (h : p.Scoped q) (hp : p.WellFormed) :
    q.deadComputes q.useMap = [] ↔ ∀ d, ¬ Sweep.Doomed p q d := by
  rw [List.eq_nil_iff_forall_not_mem]
  exact forall_congr' fun d => not_congr (h.mem_deadComputes_iff hp)

/-! ## Sweep after sweep -/

/-- A sweep is a run. -/
theorem Sweep.Going.dropsAll (hp : p.WellFormed) {dead : List OpId} (hnodup : dead.Nodup)
    (h : Going p w) (hrecords : w.Records) (hd : ∀ d ∈ dead, Doomed p w.program d) :
    p.DropsAll w.program dead (dead.foldl Sweep.eraseCompute w).program := by
  induction dead generalizing w with
  | nil => exact .refl h.program
  | cons d dead ih =>
    obtain ⟨hnot, hnodup⟩ := List.nodup_cons.1 hnodup
    have hdoomed := hd d List.mem_cons_self
    obtain ⟨hgoing, hstay⟩ := Going.eraseCompute hp h hdoomed
    obtain ⟨token, hfirst⟩ := hdoomed.exists_first h.program.prunes
    obtain ⟨hdrops, hrecords'⟩ := Going.drops hp h hrecords hdoomed hfirst
    refine .cons h.program hdoomed hdrops (ih hnodup hgoing hrecords' fun x hx => ?_)
    exact hstay x (fun heq => hnot (heq ▸ hx)) (hd x (List.mem_cons_of_mem _ hx))

/-- Sweeps are a run that ends at the limit or when nothing is dead. -/
theorem Program.Scoped.exists_run (h : p.Scoped q) (hp : p.WellFormed) (limit : Nat) :
    ∃ ds, p.DropsAll q ds (sweepDeadComputes limit q).1 ∧
      ds.length = (sweepDeadComputes limit q).2 ∧
      (ds.length < limit → ∀ d, ¬ Sweep.Doomed p (sweepDeadComputes limit q).1 d) := by
  induction limit generalizing q with
  | zero => exact ⟨[], .refl h, rfl, fun hlt => absurd hlt (Nat.not_lt_zero _)⟩
  | succ limit ih =>
    rw [sweepDeadComputes]
    split
    · next hnone =>
      exact ⟨[], .refl h, rfl, fun _ =>
        (h.deadComputes_eq_nil_iff hp).1 (List.isEmpty_iff.1 hnone)⟩
    · next hsome =>
      have hsweep : p.DropsAll q (q.deadComputes q.useMap) _ := Sweep.Going.dropsAll hp
        ((h.prunes.nodup_walk hp).filter _) (h.going hp) (h.records hp) fun d hd => h.doomed hp hd
      obtain ⟨ds, hrun, hlength, hend⟩ := ih hsweep.scoped_right
      have hpos := List.length_pos_iff.2 (mt List.isEmpty_iff.2 hsome)
      refine ⟨_, hsweep.append hrun, ?_, fun hlt => hend ?_⟩
      · rw [List.length_append, hlength]
        rfl
      · rw [List.length_append] at hlt
        omega

/-- Where a limit is enough, so is every greater one. -/
theorem Program.sweepDeadComputes_add (more : Nat)
    (h : (sweepDeadComputes limit q).1.deadComputes (sweepDeadComputes limit q).1.useMap = []) :
    sweepDeadComputes (limit + more) q = sweepDeadComputes limit q := by
  induction limit generalizing q with
  | zero =>
    have hnone : q.deadComputes q.useMap = [] := h
    cases more with
    | zero => rfl
    | succ more => simp [sweepDeadComputes, hnone]
  | succ limit ih =>
    rw [Nat.add_right_comm, sweepDeadComputes, sweepDeadComputes]
    rw [sweepDeadComputes] at h
    split
    · rfl
    · next hsome =>
      rw [if_neg hsome] at h
      dsimp only
      rw [ih h]

/-! ## One at a time -/

/-- From `q` the computes `ds` are erased one at a time, each of them dead by then with respect to
a use map of its own. -/
inductive Program.OneByOne : Program → List OpId → Program → Prop
  | nil (q : Program) : q.OneByOne [] q
  | cons {q r : Program} {d : OpId} {ds : List OpId} : d ∈ q.deadComputes q.useMap →
      (q.dropCompute d).OneByOne ds r → q.OneByOne (d :: ds) r

theorem Program.OneByOne.append {q' : Program} {ds' : List OpId} (h : q.OneByOne ds q')
    (h' : q'.OneByOne ds' r) : q.OneByOne (ds ++ ds') r := by
  induction h with
  | nil q => exact h'
  | cons hd _ ih => exact .cons hd (ih h')

theorem Program.OneByOne.dropsAll (hp : p.WellFormed) (h : p.Scoped q) (hrun : q.OneByOne ds r) :
    p.DropsAll q ds r := by
  induction hrun with
  | nil q => exact .refl h
  | cons hd _ ih =>
    have hdoomed := h.doomed hp hd
    obtain ⟨token, hfirst⟩ := hdoomed.exists_first h.prunes
    have hdrops := hdoomed.drops_dropCompute hp h hfirst
    exact .cons h hdoomed hdrops (ih hdrops.program)

/-- Erasing one at a time comes to an end. -/
theorem Program.Scoped.exists_oneByOne (h : p.Scoped q) (hp : p.WellFormed) :
    ∃ ds r, q.OneByOne ds r ∧ r.deadComputes r.useMap = [] := by
  obtain ⟨n, hn⟩ : ∃ n, ∀ ds r, p.DropsAll q ds r → ds.length ≤ n :=
    ⟨p.ops.size, fun _ _ hrun => hrun.length_le⟩
  -- what is dropped now is not dropped later
  induction n generalizing q with
  | zero =>
    refine ⟨[], q, .nil q, (h.deadComputes_eq_nil_iff hp).2 fun d hd => ?_⟩
    obtain ⟨token, hfirst⟩ := hd.exists_first h.prunes
    have hdrops := hd.drops_dropCompute hp h hfirst
    exact absurd (hn [d] _ (.cons h hd hdrops (.refl hdrops.program))) (by simp)
  | succ n ih =>
    cases hdead : q.deadComputes q.useMap with
    | nil => exact ⟨[], q, .nil q, hdead⟩
    | cons d rest =>
      have hmem : d ∈ q.deadComputes q.useMap := hdead ▸ List.mem_cons_self
      have hd := h.doomed hp hmem
      obtain ⟨token, hfirst⟩ := hd.exists_first h.prunes
      have hdrops := hd.drops_dropCompute hp h hfirst
      obtain ⟨ds, r, hrun, hend⟩ := ih hdrops.program fun ds r hrun => by
        simpa using hn (d :: ds) r (.cons h hd hdrops hrun)
      exact ⟨d :: ds, r, .cons hmem hrun, hend⟩

/-! ## To the end -/

section

variable (h : p.Scoped q) (hp : p.WellFormed)
include h hp

/-- Sweeping is a run to the end. -/
theorem Program.Scoped.removeDeadComputes_run : ∃ ds, p.DropsAll q ds q.removeDeadComputes.1 ∧
    ds.length = q.removeDeadComputes.2 ∧ ∀ d, ¬ Sweep.Doomed p q.removeDeadComputes.1 d := by
  obtain ⟨ds, hrun, hlength, hend⟩ := h.exists_run hp (q.ops.size + 1)
  refine ⟨ds, hrun, hlength, hend ?_⟩
  have hle := hrun.length_le
  rw [← h.prunes.size_ops] at hle
  omega

theorem Program.Scoped.deadComputes_removeDeadComputes :
    q.removeDeadComputes.1.deadComputes q.removeDeadComputes.1.useMap = [] := by
  obtain ⟨ds, hrun, -, hend⟩ := h.removeDeadComputes_run hp
  exact (hrun.scoped_right.deadComputes_eq_nil_iff hp).2 hend

/-- The limit is never reached. -/
theorem Program.Scoped.sweepDeadComputes_eq (hlimit : q.ops.size < limit) :
    sweepDeadComputes limit q = q.removeDeadComputes := by
  obtain ⟨more, rfl⟩ := Nat.exists_eq_add_of_lt hlimit
  rw [Nat.add_right_comm]
  exact sweepDeadComputes_add more (h.deadComputes_removeDeadComputes hp)

end

end AsyncOrder
