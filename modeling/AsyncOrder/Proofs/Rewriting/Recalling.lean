import AsyncOrder.Proofs.Rewriting.Tidying

/-!
# Names that were read

A tidy program may use a value where its name means another one: joins give way to tokens from
farther out, and an inner block may have a value of the same name.  Reading the text of such a
program fails or gives another program, since what names mean in a copy that was read, they mean in
the original:

    (∀ o live in q, ∀ v ∈ q.used o, q.Calls o v) ↔
      ∃ r, readProgram q.text = .ok r ∧ q.Mirrors q.history q.history q.funcs r
                                                                          (Prunes.readable_iff)
-/

namespace AsyncOrder

open Entity (numbering)

namespace Program

open Relation

variable {p q r : Program} {o x z : OpId} {b : BlockId} {v w : ValueId} {n : String}
variable {depth : Nat} {ops : List OpId}

/-! ## What the history holds -/

theorem op_mem_opHistory_of_path (hshallow : p.Shallow depth ops) (hz : z ∈ ops)
    (hpath : ReflTransGen (fun z o => o ∈ p.nested z ∧ p.isLive o = true) z o) :
    .op o ∈ p.opHistory depth z := by
  induction depth generalizing ops z with
  | zero => exact absurd (hshallow ▸ hz) List.not_mem_nil
  | succ depth ih =>
    refine op_mem_opHistory.2 ?_
    rcases ReflTransGen.cases_head hpath with rfl | ⟨y, ⟨hy, -⟩, hyo⟩
    · exact Or.inr rfl
    · obtain ⟨b, hb, hyb⟩ := List.mem_flatMap.1 hy
      exact Or.inl ⟨b, hb, op_mem_blockHistory.2 ⟨y, hyb, ih (hshallow z hz) hy hyo⟩⟩

/-- The history holds what lives. -/
theorem Prunes.op_mem_history (h : p.Prunes q) (hp : p.WellFormed) (hq : q.Tidy)
    (ho : q.isLive o = true) : .op o ∈ q.history := by
  obtain ⟨z, f, hf, hz, -, hpath⟩ := h.exists_root hp ho
  exact List.mem_flatMap.2 ⟨f, hf, op_mem_blockHistory.2
    ⟨z, hz, op_mem_opHistory_of_path (hq.shallow f hf) hz hpath⟩⟩

/-- Behind an operation the history holds its results, and before it the arguments around it. -/
theorem Tidy.values_mem_history (hq : q.Tidy) (hx : .op x ∈ q.history) :
    (∀ v ∈ (q.op x).results, .value v ∈ q.history) ∧
      ∀ v ∈ (q.block (q.op x).parent).args, .value v ∈ q.history := by
  have hargs : ∀ inner b, ∀ v ∈ (q.block b).args, .value v ∈ q.blockHistory inner b :=
    fun inner b v hv => List.mem_cons_of_mem _ (List.mem_append_left _ (List.mem_map_of_mem hv))
  have hop : ∀ depth o b, q.isLive o = true → o ∈ (q.block b).ops → .op x ∈ q.opHistory depth o →
      (∀ v ∈ (q.op x).results, .value v ∈ q.opHistory depth o) ∧
        ((q.op x).parent = b ∨
          ∀ v ∈ (q.block (q.op x).parent).args, .value v ∈ q.opHistory depth o) := by
    intro depth
    induction depth with
    | zero => exact fun o b _ _ hx => absurd hx List.not_mem_nil
    | succ depth ih =>
      intro o b ho hb hx
      rcases op_mem_opHistory.1 hx with ⟨c, hc, hx⟩ | rfl
      · obtain ⟨y, hy, hx⟩ := op_mem_blockHistory.1 hx
        obtain ⟨hres, hpar⟩ := ih y c (hq.nested o ho y (List.mem_flatMap.2 ⟨c, hc, hy⟩)) hy hx
        have hinner : ∀ e ∈ q.opHistory depth y, e ∈ q.opHistory (depth + 1) o := fun e he =>
          List.mem_append_left _ (List.mem_flatMap.2 ⟨c, hc, List.mem_cons_of_mem _
            (List.mem_append_right _ (List.mem_flatMap.2 ⟨y, hy, he⟩))⟩)
        refine ⟨fun v hv => hinner _ (hres v hv), Or.inr fun v hv => ?_⟩
        rcases hpar with rfl | hpar
        · exact List.mem_append_left _ (List.mem_flatMap.2 ⟨_, hc, hargs _ _ v hv⟩)
        · exact hinner _ (hpar v hv)
      · refine ⟨fun v hv => ?_, Or.inl (hq.parent b x ho hb)⟩
        exact List.mem_append_right _ (List.mem_cons_of_mem _ (List.mem_map_of_mem hv))
  obtain ⟨f, hf, hx⟩ := List.mem_flatMap.1 hx
  have hbody : ∀ e ∈ q.blockHistory (q.opHistory (q.blocks.size + 1)) f.body, e ∈ q.history :=
    fun e he => List.mem_flatMap.2 ⟨f, hf, he⟩
  obtain ⟨z, hz, hx⟩ := op_mem_blockHistory.1 hx
  have hinner : ∀ e ∈ q.opHistory (q.blocks.size + 1) z, e ∈ q.history := fun e he =>
    hbody _ (List.mem_cons_of_mem _ (List.mem_append_right _ (List.mem_flatMap.2 ⟨z, hz, he⟩)))
  obtain ⟨hres, hpar⟩ := hop _ z f.body (hq.bodies f hf z hz) hz hx
  refine ⟨fun v hv => hinner _ (hres v hv), fun v hv => ?_⟩
  rcases hpar with hpar | hpar
  · rw [hpar] at hv
    exact hbody _ (hargs _ _ v hv)
  · exact hinner _ (hpar v hv)

/-! ## A copy -/

theorem numbering_op_inj {h : List Entity} (ho : .op o ∈ h)
    (heq : (numbering h).op o = (numbering h).op z) : o = z :=
  (List.idxOf_inj (Entity.mem_ops.2 ho)).1 (congrArg OpId.index heq)

theorem numbering_value_inj {h : List Entity} (hv : .value v ∈ h)
    (heq : (numbering h).value v = (numbering h).value w) : v = w :=
  (List.idxOf_inj (Entity.mem_values.2 hv)).1 (congrArg ValueId.index heq)

section

variable (h : p.Prunes q) (hp : p.WellFormed) (hq : q.Tidy)
variable (hm : q.Mirrors q.history q.history q.funcs r)

theorem latest?_map {called : ValueId → Option String} (f : ValueId → ValueId)
    (vs : List ValueId) : latest? called n (vs.map f) = (latest? (called ∘ f) n vs).map f := by
  rw [latest?, latest?, ← List.map_reverse, List.find?_map]
  rfl

/-- What stands in the block of a live operation lives. -/
theorem Prunes.isLive_sibling (h : p.Prunes q) (ho : q.isLive o = true)
    (hz : z ∈ (q.block (q.op o).parent).ops) : q.isLive z = true :=
  h.within _ (fun _ hy => h.around o _ ho hy) z hz

include h hp hq

theorem Prunes.before_mem_history (ho : q.isLive o = true) (hv : v ∈ q.before o) :
    .value v ∈ q.history := by
  rcases List.mem_append.1 hv with hv | hv
  · exact (hq.values_mem_history (h.op_mem_history hp hq ho)).2 v hv
  · obtain ⟨z, hz, hv⟩ := List.mem_flatMap.1 hv
    have hlive := h.isLive_sibling ho ((List.takeWhile_sublist _).subset hz)
    exact (hq.values_mem_history (h.op_mem_history hp hq hlive)).1 v hv

include hm

/-- What stands before an operation stands before its copy. -/
theorem Prunes.before_copy (ho : q.isLive o = true) :
    r.before ((numbering q.history).op o) = (q.before o).map (numbering q.history).value := by
  have hmem := h.op_mem_history hp hq ho
  have hparent : (r.op ((numbering q.history).op o)).parent =
      (numbering q.history).block (q.op o).parent := congrArg Operation.parent (hm.op o hmem)
  have hsibling : ∀ z ∈ (q.block (q.op o).parent).ops, .op z ∈ q.history ∧ q.isLive z = true :=
    fun z hz => ⟨h.op_mem_history hp hq (h.isLive_sibling ho hz), h.isLive_sibling ho hz⟩
  have hblock := hm.block _ (hm.parents o hmem)
  rw [hq.made_ops (List.prefix_refl _) hsibling] at hblock
  have htake : ∀ ops : List OpId, (∀ z ∈ ops, .op z ∈ q.history) →
      (ops.map (numbering q.history).op).takeWhile (· ≠ (numbering q.history).op o) =
        (ops.takeWhile (· ≠ o)).map (numbering q.history).op := by
    intro ops hops
    induction ops with
    | nil => rfl
    | cons z ops ih =>
      obtain ⟨hz, hops⟩ := List.forall_mem_cons.1 hops
      rw [List.map_cons]
      by_cases hzo : z = o
      · subst hzo
        simp
      · have hne : (numbering q.history).op z ≠ (numbering q.history).op o := fun heq =>
          hzo (numbering_op_inj hz heq)
        rw [List.takeWhile_cons_of_pos (by simpa using hne),
          List.takeWhile_cons_of_pos (by simpa using hzo), List.map_cons, ih hops]
  rw [before, before, hparent, hblock, htake _ fun z hz => (hsibling z hz).1, List.map_append,
    List.flatMap_map, List.map_flatMap]
  congr 1
  refine List.flatMap_congr fun z hz => ?_
  exact congrArg Operation.results (hm.op z (hsibling z ((List.takeWhile_sublist _).subset hz)).1)

/-- A name that means a value in the copy means what the value is a copy of. -/
theorem Prunes.latest?_copy (ho : q.isLive o = true) :
    latest? r.givenName? n (r.before ((numbering q.history).op o)) =
      (latest? (fun v => some (q.valueName v)) n (q.before o)).map (numbering q.history).value := by
  rw [h.before_copy hp hq hm ho, latest?_map, latest?_congr fun v hv => ?_]
  exact (hm.value v (h.before_mem_history hp hq ho hv)).2

/-- What owns the block of a copy is a copy of what owns the block. -/
theorem Prunes.parentOp?_copy (ho : q.isLive o = true) {z' : OpId}
    (hz : r.parentOp? ((numbering q.history).op o) = some z') :
    ∃ z, q.parentOp? o = some z ∧ q.isLive z = true ∧ z' = (numbering q.history).op z := by
  have hmem := h.op_mem_history hp hq ho
  have hparent : (r.op ((numbering q.history).op o)).parent =
      (numbering q.history).block (q.op o).parent := congrArg Operation.parent (hm.op o hmem)
  rw [show r.parentOp? _ = (r.block (r.op _).parent).parentOp from rfl, hparent,
    hm.block _ (hm.parents o hmem)] at hz
  obtain ⟨z, hfind, rfl⟩ := Option.map_eq_some_iff.1 hz
  have hzmem := Entity.mem_ops.1 (List.mem_reverse.1 (List.mem_of_find?_eq_some hfind))
  have hlive := (hq.mem_ops_of_mem_history hzmem).1
  exact ⟨z, hq.owner z hlive _ (by simpa using List.find?_some hfind), hlive, rfl⟩

/-- What a name means to a copy it means to the original. -/
theorem Prunes.means_copy {o' : OpId} {w' : ValueId}
    (hmeans : r.Means r.givenName? (fun _ _ _ => False) o' n w') (ho : q.isLive o = true)
    (heq : o' = (numbering q.history).op o) : ∃ w, .value w ∈ q.history ∧
      w' = (numbering q.history).value w ∧ q.valueName w = n ∧
        q.Means (fun v => some (q.valueName v)) (fun _ _ _ => False) o n w := by
  induction hmeans generalizing o with
  | @inside o' n w' hlatest =>
    rw [heq, h.latest?_copy hp hq hm ho] at hlatest
    obtain ⟨w, hw, rfl⟩ := Option.map_eq_some_iff.1 hlatest
    obtain ⟨hbefore, hname⟩ := mem_of_latest? hw
    exact ⟨w, h.before_mem_history hp hq ho hbefore, rfl, Option.some.inj hname, .inside hw⟩
  | @outer o' z' n w' hnone hz hkind _ ih =>
    rw [heq, h.latest?_copy hp hq hm ho, Option.map_eq_none_iff] at hnone
    obtain ⟨z, hparent, hlive, rfl⟩ := h.parentOp?_copy hp hq hm ho (heq ▸ hz)
    obtain ⟨w, hmem, hw, hname, hmeans⟩ := ih hlive rfl
    have hkind' : q.kind z = r.kind ((numbering q.history).op z) :=
      (congrArg Operation.kind (hm.op z (h.op_mem_history hp hq hlive))).symm
    exact ⟨w, hmem, hw, hname, .outer hnone hparent (hkind' ▸ hkind) hmeans⟩
  | beyond _ hfalse => exact hfalse.elim

end

/-! ## Reading again -/

/-- The text of a tidy program is read as a copy of the program just if every name means what it
stands for. -/
theorem Prunes.readable_iff (h : p.Prunes q) (hp : p.WellFormed) (hq : q.Tidy) (hs : q.Spellable) :
    (∀ o, q.isLive o = true → ∀ v ∈ q.used o, q.Calls o v) ↔
      ∃ r, readProgram q.text = .ok r ∧ q.Mirrors q.history q.history q.funcs r := by
  constructor
  · exact fun hcalled => Readable.readProgram_text ⟨hq, hcalled⟩ hs
  · rintro ⟨r, hr, hm⟩ o ho v hv
    have hmem := h.op_mem_history hp hq ho
    have hused : (numbering q.history).value v ∈ r.used ((numbering q.history).op o) := by
      have hop := hm.op o hmem
      have hoperands := congrArg Operation.operands hop
      have hdeps := congrArg Operation.deps hop
      rcases List.mem_append.1 hv with hv | hv
      · exact List.mem_append_left _ (hoperands.symm ▸ List.mem_map_of_mem hv)
      · exact List.mem_append_right _ (hdeps.symm ▸ List.mem_map_of_mem hv)
    obtain ⟨n, hmeans⟩ := (Lowering.named_of_steps (steps_of_readProgram hr)).means
      ((numbering q.history).op o) (hm.op_lt (List.prefix_refl _) hmem) _ hused
    obtain ⟨w, hwmem, hw, hname, hcalls⟩ := h.means_copy hp hq hm hmeans ho rfl
    obtain rfl := numbering_value_inj hwmem hw.symm
    rw [Calls, hname]
    exact hcalls

end Program

end AsyncOrder
