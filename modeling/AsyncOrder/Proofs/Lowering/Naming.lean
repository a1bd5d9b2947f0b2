import AsyncOrder.Proofs.Lowering.WellFormed

/-!
# Names denote what they were read as

Lowering looks a name up in its frames; afterwards the frames are gone, and a name has to be
looked up in the program.  Every use in a finished program is a use of a named value, and where it
stands that name means that value.
-/

namespace AsyncOrder.Lowering

open Program

/-- What names mean to the operations of an unowned block, from outside. -/
def FoundBeyond (p : Program) : List Site → BlockId → String → ValueId → Prop
  | [], _, _, _ => False
  | s :: outer, b, n, v =>
    (b = s.block ∧ s.region ≠ .hierarchy ∧ Found p outer n v) ∨
      (∃ r, (r, b) ∈ s.bodies ∧ r ≠ .hierarchy ∧ Found p (s :: outer) n v) ∨
        FoundBeyond p outer b n v

structure Named (c : Construction) : Prop where
  distinct : ∀ b, ((c.program.locals b).filterMap c.program.givenName?).Nodup
  means : ∀ o, o.index < c.program.ops.size → ∀ v ∈ c.program.used o, ∃ n,
    c.program.Means c.program.givenName? (FoundBeyond c.program c.sites) o n v

theorem named_empty : Named ⟨.empty, []⟩ where
  distinct _ := List.nodup_nil
  means _ ho := absurd ho (Nat.not_lt_zero _)

variable {p q : Program} {s t : Site} {outer sites : List Site} {b : BlockId} {n : String}
variable {v : ValueId} {o : OpId} {spec : OpSpec}

theorem FoundBeyond.grow (hp : p.Linked) (h : p.Grows q)
    (hops : ∀ s ∈ sites, s.block.index < p.blocks.size ∧
      (q.block s.block).ops = (p.block s.block).ops) (hb : FoundBeyond p sites b n v) :
    FoundBeyond q sites b n v := by
  induction sites with
  | nil => exact hb
  | cons s outer ih =>
    have houter := (List.forall_mem_cons.1 hops).2
    rcases hb with ⟨rfl, hr, hf⟩ | ⟨r, hr, hne, hf⟩ | hb
    · exact Or.inl ⟨rfl, hr, hf.grow hp h houter⟩
    · exact Or.inr (Or.inl ⟨r, hr, hne, hf.grow hp h hops⟩)
    · exact Or.inr (Or.inr (ih houter hb))

/-- Names stay distinct in blocks that are left alone. -/
theorem distinct_of_grows (hp : p.Linked) (h : p.Grows q)
    (hargs : (q.block b).args = (p.block b).args) (hops : (q.block b).ops = (p.block b).ops)
    (hb : ((p.locals b).filterMap p.givenName?).Nodup) :
    ((q.locals b).filterMap q.givenName?).Nodup := by
  rw [h.locals hp hargs hops]
  rwa [List.filterMap_congr fun v hv => h.givenName? (lt_of_mem_locals hp hv)]

theorem distinct_addBlock (hp : p.Linked) (h : ∀ b, ((p.locals b).filterMap p.givenName?).Nodup)
    {args : List (Option String × ValueType)} (hargs : (args.filterMap (·.1)).Nodup) (b : BlockId) :
    (((p.addBlock args).2.locals b).filterMap (p.addBlock args).2.givenName?).Nodup := by
  by_cases hb : b.index = p.blocks.size
  · obtain ⟨i⟩ := b
    obtain rfl : i = p.blocks.size := hb
    have hnames := congrArg (List.filterMap id) (p.names_addBlock args)
    rw [List.filterMap_map, List.filterMap_map] at hnames
    have hlocals : (p.addBlock args).2.locals ⟨p.blocks.size⟩ =
        ((p.addBlock args).2.block ⟨p.blocks.size⟩).args := by
      rw [locals, block_addBlock, if_pos rfl]
      exact List.append_nil _
    rw [hlocals]
    exact (congrArg List.Nodup hnames).mpr hargs
  · have hblock : (p.addBlock args).2.block b = p.block b := by rw [block_addBlock, if_neg hb]
    exact distinct_of_grows hp (grows_addBlock args) (congrArg _ hblock) (congrArg _ hblock) (h b)

section op

variable (h : Sound ⟨p, s :: outer⟩) (hfits : Fits p s outer spec)
include h hfits

theorem Sound.before_new : (p.appendOp s.block spec).2.before ⟨p.ops.size⟩ = p.locals s.block := by
  have hfree := h.free hfits
  have hparent : ((p.appendOp s.block spec).2.op ⟨p.ops.size⟩).parent = s.block := by
    rw [op_appendOp, if_pos rfl]
    rfl
  have hold : ∀ z ∈ (p.block s.block).ops, z.index < p.ops.size :=
    fun z hz => h.linked.size_of_mem_ops hz
  rw [before_eq (h.linked.appendOp hfree) (by simp), hparent, hfree.block_appendOp, if_pos rfl,
    List.filter_append, List.filter_eq_self.2 (by simpa using hold), locals]
  simp only [Nat.lt_irrefl, decide_false, Bool.false_eq_true, not_false_eq_true,
    List.filter_cons_of_neg, List.filter_nil, List.append_nil]
  congr 1
  exact List.flatMap_congr fun z hz => by rw [hfree.grows.op z (hold z hz)]

theorem Sound.outer_ops : ∀ t ∈ outer, t.block.index < p.blocks.size ∧
    ((p.appendOp s.block spec).2.block t.block).ops = (p.block t.block).ops := by
  intro t ht
  have hne : s.block ≠ t.block := fun heq => (List.nodup_cons.1 h.distinct).1
    (List.mem_map.2 ⟨t, ht, heq.symm⟩)
  refine ⟨h.site_lt (List.mem_cons_of_mem _ ht), ?_⟩
  rw [(h.free hfits).block_appendOp, if_neg hne]

/-- To the new operation a name means what was found at its site. -/
theorem Sound.means_new (hf : Found p (s :: outer) n v) :
    (p.appendOp s.block spec).2.Means (p.appendOp s.block spec).2.givenName?
      (FoundBeyond (p.appendOp s.block spec).2 ({ s with bodies := [] } :: outer)) ⟨p.ops.size⟩ n v := by
  have hgrow := (h.free hfits).grows
  have hparent : ((p.appendOp s.block spec).2.op ⟨p.ops.size⟩).parent = s.block := by
    rw [op_appendOp, if_pos rfl]
    rfl
  have hlatest : latest? (p.appendOp s.block spec).2.givenName? n
      ((p.appendOp s.block spec).2.before ⟨p.ops.size⟩) =
        latest? p.givenName? n (p.locals s.block) := by
    rw [h.before_new hfits]
    exact latest?_congr fun v hv => hgrow.givenName? (lt_of_mem_locals h.linked hv)
  rcases hf with hv | ⟨hnone, hr, hf⟩
  · exact .inside (hlatest.trans hv)
  · exact .beyond (hlatest.trans hnone)
      (Or.inl ⟨hparent, hr, hf.grow h.linked hgrow (h.outer_ops hfits)⟩)

/-- Names used in the bodies taken are looked up through the new operation. -/
theorem Sound.means_old (ho : o.index < p.ops.size)
    (hnone : latest? p.givenName? n (p.before o) = none)
    (hb : FoundBeyond p (s :: outer) (p.op o).parent n v) :
    (p.appendOp s.block spec).2.Means (p.appendOp s.block spec).2.givenName?
      (FoundBeyond (p.appendOp s.block spec).2 ({ s with bodies := [] } :: outer)) o n v := by
  have hfree := h.free hfits
  have hgrow := hfree.grows
  have hparent : ((p.appendOp s.block spec).2.op o).parent = (p.op o).parent := by
    rw [hgrow.op o ho]
  have hnone' : latest? (p.appendOp s.block spec).2.givenName? n
      ((p.appendOp s.block spec).2.before o) = none := by
    rw [hgrow.latest?_before h.linked (h.linked.appendOp hfree) ho, hnone]
  rcases hb with ⟨hb, hr, hf⟩ | ⟨r, hr, hne, hf⟩ | hb
  · exact .beyond hnone' (Or.inl ⟨hparent.trans hb, hr,
      hf.grow h.linked hgrow (h.outer_ops hfits)⟩)
  · refine .outer hnone' ?_ ?_ (h.means_new hfits hf)
    · rw [parentOp?, hparent, hfree.parentOp_appendOp_iff, hfits.regions]
      exact Or.inr ⟨List.mem_map.2 ⟨_, hr, rfl⟩, rfl⟩
    · rw [kind, op_appendOp, if_pos rfl]
      refine isHierarchy_eq_false spec.kind r ?_ hne
      rw [hfits.bodies]
      exact List.mem_map.2 ⟨_, hr, rfl⟩
  · exact .beyond hnone' (Or.inr (Or.inr (hparent ▸ hb.grow h.linked hgrow (h.outer_ops hfits))))

theorem Named.op (hn : Named ⟨p, s :: outer⟩) :
    Named ⟨(p.appendOp s.block spec).2, { s with bodies := [] } :: outer⟩ := by
  have hfree := h.free hfits
  have hgrow := hfree.grows
  have hlinked := h.linked.appendOp hfree
  constructor
  · intro b
    by_cases hb : s.block = b
    · subst hb
      have hnames := congrArg (List.filterMap id) (p.names_newResults (b := s.block) spec)
      rw [List.filterMap_map, List.filterMap_map] at hnames
      rw [hfree.locals_appendOp h.linked, List.filterMap_append,
        List.filterMap_congr fun v hv => hgrow.givenName? (lt_of_mem_locals h.linked hv)]
      exact (congrArg (fun l => List.Nodup (_ ++ l)) hnames).mpr hfits.fresh
    · have hblock := hfree.block_appendOp b
      rw [if_neg hb] at hblock
      have hargs := congrArg Block.args hblock
      have hops := congrArg Block.ops hblock
      exact distinct_of_grows h.linked hgrow hargs hops (hn.distinct b)
  · intro o ho v hv
    have ho : o.index < p.ops.size + 1 := p.size_ops_appendOp s.block spec ▸ ho
    rcases Nat.lt_succ_iff_lt_or_eq.1 ho with hlt | heq
    · rw [used, hgrow.op o hlt] at hv
      obtain ⟨n, hm⟩ := hn.means o hlt v hv
      exact ⟨n, hm.grow h.linked hlinked hgrow
        (fun o ho n v hnone hb => h.means_old hfits ho hnone hb) hlt⟩
    · obtain ⟨i⟩ := o
      obtain rfl : i = p.ops.size := heq
      rw [used, op_appendOp, if_pos rfl] at hv
      obtain ⟨n, hf⟩ := hfits.found v hv
      exact ⟨n, h.means_new hfits hf⟩

end op

/-- The sites change, and so does the program, but not what is in it already. -/
theorem Named.move {c d : Construction} (hc : Named c) (hlinked : c.program.Linked)
    (hd : d.program.Linked) (hgrow : c.program.Grows d.program)
    (hops : d.program.ops = c.program.ops)
    (hdistinct : ∀ b, ((d.program.locals b).filterMap d.program.givenName?).Nodup)
    (hbeyond : ∀ b n v, FoundBeyond c.program c.sites b n v →
      FoundBeyond d.program d.sites b n v) : Named d := by
  refine ⟨hdistinct, fun o ho v hv => ?_⟩
  rw [hops] at ho
  rw [used, hgrow.op o ho] at hv
  obtain ⟨n, hm⟩ := hc.means o ho v hv
  refine ⟨n, hm.grow hlinked hd hgrow (fun o ho n v hnone hb => .beyond ?_ ?_) ho⟩
  · rw [hgrow.latest?_before hlinked hd ho, hnone]
  · rw [hgrow.op o ho]
    exact hbeyond _ n v hb

theorem foundBeyond_close (hbodies : s.bodies = []) (hb : FoundBeyond p (s :: t :: outer) b n v) :
    FoundBeyond p ({ t with bodies := t.bodies ++ [(s.region, s.block)] } :: outer) b n v := by
  rcases hb with ⟨rfl, hr, hk⟩ | ⟨r, hr, -⟩ | ⟨rfl, hr, hk⟩ | ⟨r, hr, hne, hk⟩ | hv
  · exact Or.inr (Or.inl ⟨s.region, List.mem_append_right _ List.mem_cons_self, hr, hk⟩)
  · rw [hbodies] at hr
    exact absurd hr List.not_mem_nil
  · exact Or.inl ⟨rfl, hr, hk⟩
  · exact Or.inr (Or.inl ⟨r, List.mem_append_left _ hr, hne, hk⟩)
  · exact Or.inr (Or.inr hv)

theorem foundBeyond_finish (hbodies : s.bodies = []) (hb : FoundBeyond p [s] b n v) :
    FoundBeyond p [] b n v := by
  rcases hb with ⟨-, -, hk⟩ | ⟨r, hr, -⟩ | hb
  · exact hk
  · rw [hbodies] at hr
    exact absurd hr List.not_mem_nil
  · exact hb

theorem Named.step {c d : Construction} (hsound : Sound c) (hc : Named c) (h : Step c d) :
    Named d := by
  have hd := hsound.step h
  have hlinked := hsound.linked
  cases h with
  | func p name args hargs =>
    exact hc.move hlinked hd.linked (grows_addFunc name args) rfl
      (distinct_addBlock hlinked hc.distinct hargs) fun _ _ _ hb => hb.elim
  | body p s outer region args hargs _ =>
    refine hc.move hlinked hd.linked (grows_addBlock args) rfl
      (distinct_addBlock hlinked hc.distinct hargs) fun b n v hb => ?_
    refine Or.inr (Or.inr (hb.grow hlinked (grows_addBlock args) fun t ht => ?_))
    have hlt := hsound.site_lt ht
    exact ⟨hlt, by rw [block_addBlock, if_neg (Nat.ne_of_lt hlt)]⟩
  | op p s outer spec hfits => exact hc.op hsound hfits
  | close p s t outer hbodies _ _ =>
    exact hc.move hlinked hlinked (.refl p) rfl hc.distinct fun _ _ _ => foundBeyond_close hbodies
  | finish p s hbodies _ =>
    exact hc.move hlinked hlinked (.refl p) rfl hc.distinct fun _ _ _ => foundBeyond_finish hbodies

theorem named_of_steps {c : Construction} (h : Steps ⟨.empty, []⟩ c) : Named c := by
  induction h with
  | refl => exact named_empty
  | tail hsteps hstep ih => exact ih.step (sound_empty.steps hsteps) hstep

end AsyncOrder.Lowering
