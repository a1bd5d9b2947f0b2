import AsyncOrder.Proofs.Rewriting.Dropping

/-!
# In any order

Two programs are alike if the same lives in them, uses the same operands and waits on the same
tokens.  Of two doomed computes either may be dropped first: what is left is alike
(`Drops.swap`), since nothing waits on itself, by way of others or not.  So what can be dropped now
can be dropped first, and runs to the end drop the same computes:

    d doomed in q, ds dropped from q to the end  →  d ∈ ds, and the others may follow it
                                                                        (DropsAll.exchange)
    ds and ds' dropped from q to the end  →  ds is ds' in another order, and the ends are alike
                                                                        (DropsAll.unique)
-/

namespace AsyncOrder

open Program Relation

variable {p q q' r r' : Program} {d d' o x z : OpId} {v token token' : ValueId}
variable {ds ds' : List OpId}

/-! ## Alike programs -/

/-- The same lives in both programs, uses the same operands and waits on the same tokens. -/
structure Program.Alike (q r : Program) : Prop where
  isLive : ∀ o, r.isLive o = q.isLive o
  operands : ∀ o, q.isLive o = true → (r.op o).operands = (q.op o).operands
  deps : ∀ o v, q.isLive o = true → (v ∈ r.deps o ↔ v ∈ q.deps o)

namespace Program.Alike

theorem refl (q : Program) : q.Alike q := ⟨fun _ => rfl, fun _ _ => rfl, fun _ _ _ => Iff.rfl⟩

theorem symm (h : q.Alike r) : r.Alike q where
  isLive o := (h.isLive o).symm
  operands o ho := (h.operands o (h.isLive o ▸ ho)).symm
  deps o v ho := (h.deps o v (h.isLive o ▸ ho)).symm

theorem trans (h : q.Alike r) (h' : r.Alike r') : q.Alike r' where
  isLive o := (h'.isLive o).trans (h.isLive o)
  operands o ho := (h'.operands o ((h.isLive o).trans ho)).trans (h.operands o ho)
  deps o v ho := (h'.deps o v ((h.isLive o).trans ho)).trans (h.deps o v ho)

/-- What is doomed in one is doomed in the other. -/
theorem doomed (h : q.Alike r) (hq : p.Scoped q) (hr : p.Scoped r) (hd : Sweep.Doomed p q d) :
    Sweep.Doomed p r d :=
  hd.mono ((h.isLive d).trans hd.isLive)
    (fun o => (hr.prunes.outline o).trans (hq.prunes.outline o).symm)
    (fun o ho => h.isLive o ▸ ho) (fun o ho => h.operands o (h.isLive o ▸ ho))
    fun o ho v hv => ⟨o, h.isLive o ▸ ho, (h.deps o v (h.isLive o ▸ ho)).1 hv⟩

end Program.Alike

/-! ## Two computes -/

namespace Program.Drops

theorem back (h : p.Drops q d token r) (ho : r.isLive o = true) : q.isLive o = true :=
  ((h.isLive o).1 ho).1

theorem token_eq (h : p.Drops q d token r) (h' : p.Drops q' d token' r') : token = token' :=
  Option.some.inj (h.first.symm.trans h'.first)

/-- Where a compute is dropped does not matter but for who lives and waits. -/
theorem of_alike (h : p.Drops q d token r) (hq : q.Alike q') (hd : q.isLive d = true) :
    p.Drops q' d token r where
  program := h.program
  first := h.first
  isLive o := by rw [h.isLive, hq.isLive]
  operands o ho := (h.operands o ho).trans (hq.operands o (h.back ho)).symm
  deps o v ho := by
    rw [h.deps o v ho, hq.deps o v (h.back ho), hq.deps o token (h.back ho), hq.deps d v hd]

/-- Nor does it matter how the compute is dropped. -/
theorem alike (h : p.Drops q d token r) (h' : p.Drops q d token' r') : r.Alike r' := by
  obtain rfl := h.token_eq h'
  have hlive : ∀ o, r'.isLive o = r.isLive o := fun o =>
    Bool.eq_iff_iff.2 ((h'.isLive o).trans (h.isLive o).symm)
  refine ⟨hlive, fun o ho => ?_, fun o v ho => ?_⟩
  · exact (h'.operands o ((hlive o).trans ho)).trans (h.operands o ho).symm
  · rw [h'.deps o v ((hlive o).trans ho), h.deps o v ho]

/-- What else is doomed stays so. -/
theorem doomed (h : p.Drops q d token r) (hq : p.Scoped q) (hd : Sweep.Doomed p q d)
    (hx : Sweep.Doomed p q x) (hne : x ≠ d) : Sweep.Doomed p r x := by
  refine hx.mono ((h.isLive x).2 ⟨hx.isLive, fun hunder => ?_⟩)
    (fun o => (h.program.prunes.outline o).trans (hq.prunes.outline o).symm) (fun o => h.back)
    h.operands fun o ho v hv => ?_
  · -- a compute has effects, so none lies in one that is doomed
    rcases hd.within x hx.isLive hunder with rfl | heffect
    · exact hne rfl
    · rw [hx.kind] at heffect
      cases heffect
  · rcases (h.deps o v ho).1 hv with ⟨hv, -⟩ | ⟨-, hv⟩
    · exact ⟨o, h.back ho, hv⟩
    · exact ⟨d, hd.isLive, hv⟩

/-- Of two doomed computes the other one may be dropped first. -/
theorem swap {q₁ q₂ : Program} (hp : p.WellFormed) (hq : p.Scoped q) (hd : Sweep.Doomed p q d)
    (hd' : Sweep.Doomed p q d') (hne : d ≠ d') (h : p.Drops q d token q₁)
    (h' : p.Drops q d' token' q₂) (h₂ : p.Drops q₂ d token r) : p.Drops q₁ d' token' r := by
  have hlive : ∀ o, r.isLive o = true ↔
      q₁.isLive o = true ∧ ¬ p.Under (fun _ => true) d' o := fun o => by
    rw [h₂.isLive, h'.isLive, h.isLive, and_right_comm]
  have hd₁ := h.doomed hq hd hd' hne.symm
  have hd₂ := h'.doomed hq hd' hd hne
  have hmem := List.mem_of_head? h.first
  have hmem' := List.mem_of_head? h'.first
  have htokens : token ≠ token' := by
    rintro rfl
    exact hne (hp.linked.eq_of_mem_results hmem hmem')
  have hself := hd.token_not_mem hp hq h.first
  have hself' := hd'.token_not_mem hp hq h'.first
  -- not both wait on each other
  have hcycle : ¬ (token ∈ q.deps d' ∧ token' ∈ q.deps d) := by
    have hvisible : ∀ {o v}, q.isLive o = true → v ∈ q.deps o → p.Visible o v := fun ho hv =>
      ((hq.prunes.inView_iff hp.linked ho).1
        (hq.wellScoped _ ho _ (List.mem_append_right _ hv))).1
    rintro ⟨hwaits', hwaits⟩
    exact hp.linked.not_visible_self (hq.prunes.lt hd.isLive) hmem (hp.linked.visible_trans
      (hvisible hd.isLive hwaits) hmem' (hvisible hd'.isLive hwaits'))
  refine ⟨h₂.program, h'.first, hlive, fun o ho => ?_, fun o v ho => ?_⟩
  · exact ((h₂.operands o ho).trans (h'.operands o (h₂.back ho))).trans
      (h.operands o ((hlive o).1 ho).1).symm
  · have ho₁ := ((hlive o).1 ho).1
    have ho₂ := h₂.back ho
    rw [h₂.deps o v ho, h'.deps o v ho₂, h'.deps o token ho₂, h'.deps d v hd₂.isLive,
      h.deps o v ho₁, h.deps o token' ho₁, h.deps d' v hd₁.isLive]
    grind

end Program.Drops

/-! ## Runs -/

/-- From `q` the computes `ds` are dropped one after the other, each of them doomed by then. -/
inductive Program.DropsAll (p : Program) : Program → List OpId → Program → Prop
  | nil {q r : Program} : p.Scoped q → p.Scoped r → q.Alike r → p.DropsAll q [] r
  | cons {q q' r : Program} {d : OpId} {token : ValueId} {ds : List OpId} : p.Scoped q →
      Sweep.Doomed p q d → p.Drops q d token q' → p.DropsAll q' ds r → p.DropsAll q (d :: ds) r

namespace Program.DropsAll

theorem refl (h : p.Scoped q) : p.DropsAll q [] q := .nil h h (.refl q)

theorem scoped_left (h : p.DropsAll q ds r) : p.Scoped q := by
  cases h with
  | nil hq _ _ => exact hq
  | cons hq _ _ _ => exact hq

theorem scoped_right (h : p.DropsAll q ds r) : p.Scoped r := by
  induction h with
  | nil _ hr _ => exact hr
  | cons _ _ _ _ ih => exact ih

theorem of_alike (h : p.DropsAll q ds r) (hq : p.Scoped q') (halike : q.Alike q') :
    p.DropsAll q' ds r := by
  cases h with
  | nil _ hr h => exact .nil hq hr (halike.symm.trans h)
  | cons hscoped hd hdrop hrest =>
    exact .cons hq (halike.doomed hscoped hq hd) (hdrop.of_alike halike hd.isLive) hrest

theorem append (h : p.DropsAll q ds q') (h' : p.DropsAll q' ds' r) :
    p.DropsAll q (ds ++ ds') r := by
  induction h with
  | nil hq hr halike => exact h'.of_alike hq halike.symm
  | cons hq hd hdrop _ ih => exact .cons hq hd hdrop (ih h')

/-! ### What is dropped -/

theorem isLive_iff (h : p.DropsAll q ds r) : r.isLive o = true ↔
    q.isLive o = true ∧ ∀ d ∈ ds, ¬ p.Under (fun _ => true) d o := by
  induction h with
  | nil _ _ halike => rw [halike.isLive]; simp
  | cons _ _ hdrop _ ih => rw [ih, hdrop.isLive, and_assoc, List.forall_mem_cons]

theorem of_mem (h : p.DropsAll q ds r) (hd : d ∈ ds) :
    q.isLive d = true ∧ p.kind d = .compute := by
  induction h with
  | nil _ _ _ => exact absurd hd List.not_mem_nil
  | cons hq hdoomed hdrop _ ih =>
    rcases List.mem_cons.1 hd with rfl | hd
    · exact ⟨hdoomed.isLive, (hq.prunes.kind d).symm.trans hdoomed.kind⟩
    · exact ⟨hdrop.back (ih hd).1, (ih hd).2⟩

/-- The computes that go are those that are dropped. -/
theorem mem_iff (h : p.DropsAll q ds r) :
    o ∈ ds ↔ p.kind o = .compute ∧ q.isLive o = true ∧ r.isLive o = false := by
  constructor
  · intro ho
    obtain ⟨hlive, hkind⟩ := h.of_mem ho
    exact ⟨hkind, hlive, Bool.eq_false_iff.2 fun hr => (h.isLive_iff.1 hr).2 o ho .refl⟩
  · rintro ⟨hkind, hlive, hgone⟩
    induction h with
    | nil _ _ halike =>
      rw [halike.isLive, hlive] at hgone
      cases hgone
    | @cons q q' r d token ds hq hd hdrop _ ih =>
      by_cases ho : q'.isLive o = true
      · exact List.mem_cons_of_mem _ (ih ho hgone)
      · have hunder : p.Under (fun _ => true) d o :=
          by_contra fun hnot => ho ((hdrop.isLive o).2 ⟨hlive, hnot⟩)
        rcases hd.within o hlive hunder with rfl | heffect
        · exact List.mem_cons_self
        · rw [hq.prunes.kind, hkind] at heffect
          cases heffect

theorem nodup (h : p.DropsAll q ds r) : ds.Nodup := by
  induction h with
  | nil _ _ _ => exact .nil
  | cons _ _ hdrop hrest ih =>
    refine List.nodup_cons.2 ⟨fun hmem => ?_, ih⟩
    exact Bool.eq_false_iff.1 hdrop.gone (hrest.of_mem hmem).1

/-- No run is longer than the program. -/
theorem length_le (h : p.DropsAll q ds r) : ds.length ≤ p.ops.size := by
  have hsub : ds ⊆ (List.range p.ops.size).map OpId.mk := fun d hd => List.mem_map.2
    ⟨d.index, List.mem_range.2 (h.scoped_left.prunes.lt (h.of_mem hd).1), rfl⟩
  simpa using (List.subperm_of_subset h.nodup hsub).length_le

/-! ### Other orders -/

/-- What can be dropped may be dropped first. -/
theorem exchange (hp : p.WellFormed) (h : p.DropsAll q ds r)
    (hend : ∀ x, ¬ Sweep.Doomed p r x) (hd : Sweep.Doomed p q d) (hdrop : p.Drops q d token q') :
    d ∈ ds ∧ p.DropsAll q' (ds.erase d) r := by
  induction h generalizing q' with
  | nil hq hr halike => exact absurd (halike.doomed hq hr hd) (hend d)
  | @cons q q₂ r d' token' ds hq hd' hdrop' hrest ih =>
    by_cases hne : d = d'
    · subst hne
      rw [List.erase_cons_head]
      exact ⟨List.mem_cons_self, hrest.of_alike hdrop.program (hdrop'.alike hdrop)⟩
    · have hd₂ := hdrop'.doomed hq hd' hd hne
      have hdrop₂ := hd₂.drops_dropCompute hp hdrop'.program hdrop.first
      obtain ⟨hmem, hrun⟩ := ih hend hd₂ hdrop₂
      rw [List.erase_cons_tail (by simpa using Ne.symm hne)]
      exact ⟨List.mem_cons_of_mem _ hmem, .cons hdrop.program
        (hdrop.doomed hq hd hd' (Ne.symm hne))
        (Drops.swap hp hq hd hd' hne hdrop hdrop' hdrop₂) hrun⟩

/-- Runs to the end drop the same computes and end alike. -/
theorem unique (hp : p.WellFormed) (h : p.DropsAll q ds r) (hend : ∀ x, ¬ Sweep.Doomed p r x)
    (h' : p.DropsAll q ds' r') (hend' : ∀ x, ¬ Sweep.Doomed p r' x) :
    ds.Perm ds' ∧ r.Alike r' := by
  induction h generalizing ds' with
  | nil hq hr halike =>
    cases h' with
    | nil _ _ halike' => exact ⟨.nil, halike.symm.trans halike'⟩
    | cons _ hd _ _ => exact absurd (halike.doomed hq hr hd) (hend _)
  | cons _ hd hdrop _ ih =>
    obtain ⟨hmem, hrest⟩ := h'.exchange hp hend' hd hdrop
    obtain ⟨hperm, halike⟩ := ih hend hrest
    exact ⟨(hperm.cons _).trans (List.perm_cons_erase hmem).symm, halike⟩

end Program.DropsAll

end AsyncOrder
