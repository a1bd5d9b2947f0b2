import AsyncOrder.Proofs.Rewriting.Pruning

/-!
# Scoped programs

A program is scoped for `p` if it is `p` pruned, and live operations use what is in view only.  It
remains so when

    operations use other values in view                                  (Scoped.rewire)
    an operation is erased whose results are not used                    (Scoped.eraseOp)
    a parameter is removed that is not used                              (Scoped.removeParam)

and what the producer of a value uses may be used in place of the value (`Scoped.inView_trans`).
-/

namespace AsyncOrder.Program

open Relation

variable {p q r : Program} {o z d x y : OpId} {b : BlockId} {v w : ValueId} {i j : Nat}

/-! ## Changed tables -/

theorem op_modifyOp (f : Operation → Operation) : (q.modifyOp o f).op z =
    if z = o ∧ z.index < q.ops.size then f (q.op z) else q.op z := by
  rw [op, modifyOp, Array.getElem?_modify]
  by_cases hz : z = o
  · subst hz
    by_cases hlt : z.index < q.ops.size
    · rw [if_pos rfl, if_pos ⟨rfl, hlt⟩, op_eq_getElem hlt, Array.getElem?_eq_getElem hlt]
      rfl
    · rw [if_pos rfl, if_neg fun h => hlt h.2, Array.getElem?_eq_none (Nat.le_of_not_lt hlt)]
      rw [op_of_size_le (Nat.le_of_not_lt hlt)]
      rfl
  · rw [if_neg fun h => hz (congrArg OpId.mk h.symm), if_neg fun h => hz h.1]
    rfl

theorem op_mapLive (f : Operation → Operation) : (q.mapLive f).op z =
    if q.isLive z then f (q.op z) else q.op z := by
  by_cases hlt : z.index < q.ops.size
  · rw [op, mapLive, Array.getElem?_map, Array.getElem?_eq_getElem hlt, isLive, op_eq_getElem hlt,
      Option.map_some, Option.getD_some]
    cases (q.ops[z.index]).erased <;> rfl
  · have hle := Nat.le_of_not_lt hlt
    rw [op_of_size_le (by simpa [mapLive] using hle), isLive, op_of_size_le hle]
    rfl

/-- What carries a value around is told by the value, and by owners and kinds. -/
theorem carriedOwner?_congr (hvalue : r.value v = q.value v)
    (howner : ∀ b, (r.block b).parentOp = (q.block b).parentOp) (hkind : ∀ o, r.kind o = q.kind o) :
    r.carriedOwner? v = q.carriedOwner? v := by
  rw [carriedOwner?, carriedOwner?, argOwner?, argOwner?, hvalue]
  simp only [howner, hkind]

/-! ## Other operands and dependencies -/

/-- The operations of `r` are those of `q`, but for what they use. -/
structure Rewires (q r : Program) : Prop where
  size_ops : r.ops.size = q.ops.size
  funcs : r.funcs = q.funcs
  values : r.values = q.values
  blocks : r.blocks = q.blocks
  outline : ∀ o, (r.op o).outline = (q.op o).outline
  isLive : ∀ o, r.isLive o = q.isLive o

theorem rewires_of_strip (h : r.strip false = q.strip false) : q.Rewires r where
  size_ops := size_ops_of_strip h
  funcs := funcs_eq_of_strip h
  values := values_eq_of_strip h
  blocks := blocks_eq_of_strip h
  outline o := by
    have hop : ∀ a : Operation, a.outline = (a.strip false).outline := fun _ => rfl
    rw [hop, op_eq_of_strip h, ← hop]
  isLive o := by rw [← @isLive_strip false, h, isLive_strip]

theorem rewires_mapLive {f : Operation → Operation} (hf : ∀ a, (f a).outline = a.outline)
    (herased : ∀ a, (f a).erased = a.erased) : q.Rewires (q.mapLive f) where
  size_ops := Array.size_map
  funcs := rfl
  values := rfl
  blocks := rfl
  outline o := by
    rw [op_mapLive]
    split
    · exact hf _
    · rfl
  isLive o := by
    rw [isLive, op_mapLive]
    split
    · rw [herased, isLive]
    · rfl

theorem rewires_replaceUses (old new : ValueId) : q.Rewires (q.replaceUses old new) :=
  rewires_mapLive (fun _ => rfl) fun _ => rfl

theorem op_replaceUses (old new : ValueId) (hz : q.isLive z = true) :
    (q.replaceUses old new).op z =
      let swap := fun w => if w = old then new else w
      { q.op z with operands := (q.op z).operands.map swap, deps := (q.op z).deps.map swap } := by
  rw [replaceUses, op_mapLive, if_pos hz]

/-- A value may take the place of another one of its type. -/
theorem types_replaceUses {old new : ValueId} (htype : q.valueType new = q.valueType old)
    (z : OpId) : ((q.replaceUses old new).op z).operands.map q.valueType =
      (q.op z).operands.map q.valueType := by
  rw [replaceUses, op_mapLive]
  split
  · rw [List.map_map]
    refine List.map_congr_left fun w _ => ?_
    show q.valueType (if w = old then new else w) = q.valueType w
    split
    · next hw => rw [hw, htype]
    · rfl
  · rfl

theorem mem_deps_replaceUses {old new : ValueId} (hv : v ∈ (q.replaceUses old new).deps z) :
    ∃ w ∈ q.deps z, v = w ∨ w = old ∧ v = new := by
  rw [deps, replaceUses, op_mapLive] at hv
  split at hv
  · obtain ⟨w, hw, rfl⟩ := List.mem_map.1 hv
    refine ⟨w, hw, ?_⟩
    by_cases hold : w = old
    · exact Or.inr ⟨hold, if_pos hold⟩
    · exact Or.inl (if_neg hold)
  · exact ⟨v, hv, Or.inl rfl⟩

theorem Rewires.block (h : q.Rewires r) (b : BlockId) : r.block b = q.block b := by
  rw [Program.block, Program.block, h.blocks]

theorem Rewires.value (h : q.Rewires r) (v : ValueId) : r.value v = q.value v := by
  rw [Program.value, Program.value, h.values]

theorem Rewires.kind (h : q.Rewires r) (o : OpId) : r.kind o = q.kind o :=
  congrArg (·.kind) (h.outline o)

theorem Rewires.owner (h : q.Rewires r) (b : BlockId) :
    (r.block b).parentOp = (q.block b).parentOp := by
  rw [h.block]

theorem Rewires.results (h : q.Rewires r) (o : OpId) : (r.op o).results = (q.op o).results :=
  congrArg (·.results) (h.outline o)

theorem Rewires.trans {r' : Program} (h : q.Rewires r) (h' : r.Rewires r') : q.Rewires r' where
  size_ops := h'.size_ops.trans h.size_ops
  funcs := h'.funcs.trans h.funcs
  values := h'.values.trans h.values
  blocks := h'.blocks.trans h.blocks
  outline o := (h'.outline o).trans (h.outline o)
  isLive o := (h'.isLive o).trans (h.isLive o)

theorem Rewires.present_iff (h : q.Rewires r) : r.Present v ↔ q.Present v := by
  simp only [Present, h.block, h.isLive, h.results]

theorem Thins.rewire (h : p.Thins q) (hr : q.Rewires r) : p.Thins r := by
  have hparent : ∀ o, (r.op o).parent = (q.op o).parent := fun o =>
    congrArg (·.parent) (hr.outline o)
  constructor
  · exact hr.size_ops.trans h.size_ops
  · exact (congrArg Array.size hr.values).trans h.size_values
  · exact (congrArg Array.size hr.blocks).trans h.size_blocks
  · exact hr.funcs.trans h.funcs
  · exact fun o => (hr.outline o).trans (h.outline o)
  · exact fun b => hr.block b ▸ h.owner b
  · intro v
    rw [← h.definingOp?, Program.definingOp?, Program.definingOp?, value, value, hr.values]
  · intro v
    rw [← h.carriedOwner?, carriedOwner?_congr (hr.value v) hr.owner hr.kind]
  · exact fun v => (congrArg (·.type) (hr.value v)).trans (h.valueType v)
  · exact fun v => (congrArg (·.name) (hr.value v)).trans (h.givenName? v)
  · exact fun b => hr.block b ▸ h.args_sublist b
  · exact fun b => hr.block b ▸ h.ops b
  · intro o ho
    rw [hr.isLive] at ho
    rw [hr.block, hparent]
    exact h.listed o ho
  · intro o z ho hz
    rw [hr.isLive] at ho ⊢
    rw [Program.parentOp?, hr.block, hparent] at hz
    exact h.around o z ho hz
  · intro b hb o ho
    simp only [hr.block, hr.isLive] at hb ho ⊢
    exact h.within b hb o ho

theorem Prunes.rewire (h : p.Prunes q) (hr : q.Rewires r) : p.Prunes r := by
  refine ⟨h.toThins.rewire hr, fun z hz o ho hterm => ?_⟩
  rw [hr.isLive] at hz ⊢
  exact h.ends z hz o ho hterm

/-- An operation stays laid out if the types of what is used stay the same. -/
theorem LaidOut.rewire (h : q.LaidOut o) (hr : q.Rewires r)
    (htypes : ∀ z, (r.op z).operands.map q.valueType = (q.op z).operands.map q.valueType)
    (hdeps : ∀ v ∈ r.deps o, (q.kind o).isAsync = true ∧ q.valueType v = .token) :
    r.LaidOut o := by
  have htype : r.valueType = q.valueType := funext fun v => congrArg (·.type) (hr.value v)
  refine h.congr (hr.outline o) htype (htypes o) hdeps fun b _ => ?_
  refine signature_congr htype (by rw [hr.block]) ?_ fun y _ => htypes y
  rw [terminator?, terminator?, hr.block]
  simp only [hr.kind]

/-! ## Scoped programs -/

/-- `q` is `p` pruned; live operations use what is in view only, and are laid out as they should. -/
structure Scoped (p q : Program) : Prop where
  prunes : p.Prunes q
  wellScoped : q.WellScoped
  laidOut : ∀ o, q.isLive o = true → q.LaidOut o

namespace Scoped

variable (h : p.Scoped q)
include h

/-- What an asynchronous operation waits on. -/
theorem waits (ho : q.isLive o = true) (hv : v ∈ q.deps o) :
    (q.kind o).isAsync = true ∧ q.valueType v = .token ∧ q.InView o v := by
  obtain ⟨hasync, htype⟩ := (h.laidOut o ho).dep hv
  exact ⟨hasync, htype, h.wellScoped o ho v (List.mem_append_right _ hv)⟩

variable (hp : p.Linked)
include hp

/-- What is in view stays in view as long as it is there. -/
theorem inView_mono (hr : p.Prunes r) (ho : q.isLive o = true) (ho' : r.isLive o = true)
    (hv : q.InView o v) (hpresent : r.Present v) : r.InView o v :=
  (hr.inView_iff hp ho').2 ⟨((h.prunes.inView_iff hp ho).1 hv).1, hpresent⟩

/-- What the producer of a value in view uses is in view. -/
theorem inView_trans (ho : q.isLive o = true) (hv : q.InView o v)
    (hd : q.definingOp? v = some d) (hw : w ∈ q.used d) : q.InView o w := by
  have hlive := h.prunes.isLive_of_inView hp hv hd
  have hvisible := ((h.prunes.inView_iff hp ho).1 hv).1
  rw [h.prunes.definingOp?, hp.definingOp?_eq_some_iff (hp.lt_of_visible hvisible)] at hd
  obtain ⟨hwvisible, hwpresent⟩ := (h.prunes.inView_iff hp hlive).1 (h.wellScoped d hlive w hw)
  exact (h.prunes.inView_iff hp ho).2 ⟨hp.visible_trans hvisible hd hwvisible, hwpresent⟩

theorem rewire (hr : q.Rewires r)
    (htypes : ∀ o, (r.op o).operands.map q.valueType = (q.op o).operands.map q.valueType)
    (hdeps : ∀ o, q.isLive o = true → ∀ v ∈ r.deps o,
      (q.kind o).isAsync = true ∧ q.valueType v = .token)
    (hused : ∀ o, q.isLive o = true → ∀ v ∈ r.used o, q.InView o v) : p.Scoped r := by
  have hprunes := h.prunes.rewire hr
  refine ⟨hprunes, fun o ho v hv => ?_, fun o ho => ?_⟩
  · have hlive := hr.isLive o ▸ ho
    have hview := hused o hlive v hv
    exact h.inView_mono hp hprunes hlive ho hview
      (hr.present_iff.2 ((h.prunes.inView_iff hp hlive).1 hview).2)
  · have hlive := hr.isLive o ▸ ho
    exact (h.laidOut o hlive).rewire hr htypes (hdeps o hlive)

/-- Dependency lists may change as long as only asynchronous operations wait, on tokens in view. -/
theorem of_strip (hr : r.strip false = q.strip false)
    (hdeps : ∀ o, q.isLive o = true → ∀ v ∈ r.deps o,
      (q.kind o).isAsync = true ∧ q.valueType v = .token ∧ q.InView o v) : p.Scoped r := by
  refine h.rewire hp (rewires_of_strip hr) (fun o => by rw [operands_eq_of_strip hr])
    (fun o ho v hv => ⟨(hdeps o ho v hv).1, (hdeps o ho v hv).2.1⟩) fun o ho v hv => ?_
  rcases List.mem_append.1 hv with hv | hv
  · exact h.wellScoped o ho v (List.mem_append_left _ (operands_eq_of_strip hr o ▸ hv))
  · exact (hdeps o ho v hv).2.2

end Scoped

/-! ## Erased operations -/

theorem op_erase (l : List OpId) (q : Program) :
    (l.foldl (fun p o => p.modifyOp o fun o => { o with erased := true }) q).op z =
      if z ∈ l then { q.op z with erased := true } else q.op z := by
  induction l generalizing q with
  | nil => rfl
  | cons d l ih =>
    rw [List.foldl_cons, ih, op_modifyOp]
    by_cases hz : z = d ∧ z.index < q.ops.size
    · rw [if_pos hz, if_pos (List.mem_cons.2 (Or.inl hz.1))]
      split <;> rfl
    · rw [if_neg hz]
      by_cases hd : z = d
      · -- an id that names nothing reads as an erased operation
        have hle := Nat.le_of_not_lt fun hlt => hz ⟨hd, hlt⟩
        rw [op_of_size_le hle, if_pos (List.mem_cons.2 (Or.inl hd))]
        split <;> rfl
      · simp only [List.mem_cons, hd, false_or]

theorem tables_erase (l : List OpId) (q : Program) :
    let r := l.foldl (fun p o => p.modifyOp o fun o => { o with erased := true }) q
    r.ops.size = q.ops.size ∧ r.values = q.values ∧ r.blocks = q.blocks ∧ r.funcs = q.funcs := by
  induction l generalizing q with
  | nil => exact ⟨rfl, rfl, rfl, rfl⟩
  | cons d l ih =>
    obtain ⟨hsize, hrest⟩ := ih (q.modifyOp d fun o => { o with erased := true })
    exact ⟨hsize.trans Array.size_modify, hrest⟩

theorem op_eraseOp : (q.eraseOp d).op z =
    if z ∈ (q.unlink d).subtree d then { q.op z with erased := true } else q.op z :=
  op_erase _ _

theorem operands_eraseOp : ((q.eraseOp d).op z).operands = (q.op z).operands := by
  rw [op_eraseOp]
  split <;> rfl

theorem deps_eraseOp : (q.eraseOp d).deps z = q.deps z := by
  rw [deps, op_eraseOp]
  split <;> rfl

theorem outline_eraseOp : ((q.eraseOp d).op z).outline = (q.op z).outline := by
  rw [op_eraseOp]
  split <;> rfl

theorem isLive_eraseOp : (q.eraseOp d).isLive z = true ↔
    q.isLive z = true ∧ z ∉ (q.unlink d).subtree d := by
  rw [isLive, op_eraseOp]
  split
  · next hz => simp [hz]
  · next hz => simp [hz, isLive]

theorem block_unlink : (q.unlink d).block b = if (q.op d).parent = b
    then { q.block b with ops := (q.block b).ops.filter (· ≠ d) } else q.block b := by
  rw [unlink, block_modifyBlock]
  by_cases hb : (q.op d).parent = b
  · by_cases hlt : b.index < q.blocks.size
    · rw [if_pos ⟨hb, hlt⟩, if_pos hb]
    · rw [if_neg fun h => hlt h.2, if_pos hb, block_of_size_le (Nat.le_of_not_lt hlt)]
      rfl
  · rw [if_neg fun h => hb h.1, if_neg hb]

theorem block_eraseOp : (q.eraseOp d).block b = (q.unlink d).block b := by
  rw [block, eraseOp, (tables_erase _ _).2.2.1, ← block]

theorem value_eraseOp : (q.eraseOp d).value v = q.value v := by
  rw [value, eraseOp, (tables_erase _ _).2.1]
  rfl

theorem mem_ops_unlink (hz : z ∈ (q.block b).ops) (hne : z ≠ d) :
    z ∈ ((q.unlink d).block b).ops := by
  rw [block_unlink]
  split
  · exact List.mem_filter.2 ⟨hz, by simpa using hne⟩
  · exact hz

theorem ops_unlink_sublist (b : BlockId) :
    ((q.unlink d).block b).ops.Sublist (q.block b).ops := by
  rw [block_unlink]
  split
  · exact List.filter_sublist
  · exact List.Sublist.refl _

theorem args_unlink (b : BlockId) : ((q.unlink d).block b).args = (q.block b).args := by
  rw [block_unlink]
  split <;> rfl

theorem owner_unlink (b : BlockId) : ((q.unlink d).block b).parentOp = (q.block b).parentOp := by
  rw [block_unlink]
  split <;> rfl

theorem nested_unlink_subset : (q.unlink d).nested z ⊆ q.nested z := by
  intro y hy
  obtain ⟨b, hb, hy⟩ := List.mem_flatMap.1 hy
  exact List.mem_flatMap.2 ⟨b, hb, (ops_unlink_sublist b).subset hy⟩

namespace Thins

variable (h : p.Thins q) (hp : p.Linked) (hd : d.index < q.ops.size)
include h hp hd

theorem mem_subtree : z ∈ (q.unlink d).subtree d ↔
    ReflTransGen (Leads (q.unlink d).nested) d z := by
  have hall : ∀ y, y.index < q.ops.size → y ∈ (List.range q.ops.size).map OpId.mk := fun y hy =>
    List.mem_map.2 ⟨y.index, List.mem_range.2 hy, rfl⟩
  have hclosed : ∀ x ∈ (List.range q.ops.size).map OpId.mk, ∀ y ∈ (q.unlink d).nested x,
      y ∈ (List.range q.ops.size).map OpId.mk := fun x _ y hy =>
    hall y (h.size_ops ▸
      (hp.mem_nested_iff.1 (h.nested_sublist.subset (nested_unlink_subset hy))).1)
  have hstack : ∀ y ∈ [d], y ∈ (List.range q.ops.size).map OpId.mk := fun y hy =>
    List.mem_singleton.1 hy ▸ hall d hd
  rw [subtree, mem_visit_iff hclosed hstack (by simp [unlink, modifyBlock])]
  simp

theorem under_of_mem_subtree (hz : z ∈ (q.unlink d).subtree d) : p.Under (fun _ => true) d z :=
  ReflTransGen.mono (fun _ _ hy => ⟨rfl, h.nested_sublist.subset (nested_unlink_subset hy)⟩) _ _
    ((h.mem_subtree hp hd).1 hz)

/-- What is erased lies, but for `d` itself, in something that is erased. -/
theorem around_of_mem_subtree (hz : z ∈ (q.unlink d).subtree d) (hne : z ≠ d) :
    ∃ c ∈ (q.unlink d).subtree d, p.parentOp? z = some c := by
  rcases ReflTransGen.cases_tail ((h.mem_subtree hp hd).1 hz) with rfl | ⟨c, hdc, hcz⟩
  · exact absurd rfl hne
  · refine ⟨c, (h.mem_subtree hp hd).2 hdc, ?_⟩
    exact (hp.mem_nested_iff.1 (h.nested_sublist.subset (nested_unlink_subset hcz))).2

/-- What nothing is nested in is erased alone. -/
theorem isLive_eraseOp_leaf (hnested : p.nested d = []) :
    (q.eraseOp d).isLive z = true ↔ q.isLive z = true ∧ z ≠ d := by
  rw [isLive_eraseOp, h.mem_subtree hp hd]
  refine and_congr_right fun _ => not_congr ⟨fun hz => ?_, fun hz => hz ▸ .refl⟩
  rcases ReflTransGen.cases_head hz with rfl | ⟨y, hy, -⟩
  · rfl
  · have hmem := h.nested_sublist.subset (nested_unlink_subset hy)
    rw [hnested] at hmem
    exact absurd hmem List.not_mem_nil

theorem eraseOp : p.Thins (q.eraseOp d) := by
  have hparent : ∀ o, ((q.eraseOp d).op o).parent = (q.op o).parent := fun o =>
    congrArg (·.parent) outline_eraseOp
  have howner : ∀ b, ((q.eraseOp d).block b).parentOp = (q.block b).parentOp := fun b => by
    rw [block_eraseOp, owner_unlink]
  have hself : d ∈ (q.unlink d).subtree d := (h.mem_subtree hp hd).2 .refl
  constructor
  · rw [Program.eraseOp, (tables_erase _ _).1]
    exact h.size_ops
  · rw [Program.eraseOp, (tables_erase _ _).2.1]
    exact h.size_values
  · rw [Program.eraseOp, (tables_erase _ _).2.2.1]
    exact Array.size_modify.trans h.size_blocks
  · rw [Program.eraseOp, (tables_erase _ _).2.2.2]
    exact h.funcs
  · exact fun o => outline_eraseOp.trans (h.outline o)
  · intro b
    rw [block_eraseOp, owner_unlink, h.owner]
  · intro v
    rw [← h.definingOp?, Program.definingOp?, value_eraseOp]
    rfl
  · intro v
    rw [← h.carriedOwner?, carriedOwner?_congr value_eraseOp howner fun o =>
      congrArg (·.kind) outline_eraseOp]
  · exact fun v => (congrArg (·.type) value_eraseOp).trans (h.valueType v)
  · exact fun v => (congrArg (·.name) value_eraseOp).trans (h.givenName? v)
  · intro b
    rw [block_eraseOp, args_unlink]
    exact h.args_sublist b
  · intro b
    rw [block_eraseOp]
    exact (ops_unlink_sublist b).trans (h.ops b)
  · intro o ho
    obtain ⟨hlive, hnot⟩ := isLive_eraseOp.1 ho
    rw [block_eraseOp, hparent]
    exact mem_ops_unlink (h.listed o hlive) fun heq => hnot (heq ▸ hself)
  · intro o z ho hz
    obtain ⟨hlive, hnot⟩ := isLive_eraseOp.1 ho
    rw [Program.parentOp?, block_eraseOp, owner_unlink, hparent] at hz
    refine isLive_eraseOp.2 ⟨h.around o z hlive hz, fun hmem => hnot ?_⟩
    -- `o` is listed in a region of `z`, and erased with it
    refine (h.mem_subtree hp hd).2 (((h.mem_subtree hp hd).1 hmem).tail ?_)
    refine List.mem_flatMap.2 ⟨(q.op o).parent, ?_, mem_ops_unlink (h.listed o hlive)
      fun heq => hnot (heq ▸ hself)⟩
    rw [show ((q.unlink d).op z).regions = (q.op z).regions from rfl, h.regions]
    exact (hp.mem_regions z _).2 (h.owner _ ▸ hz)
  · intro b hb o ho
    rw [block_eraseOp] at ho
    simp only [howner] at hb
    refine isLive_eraseOp.2 ⟨h.within b (fun z hz => (isLive_eraseOp.1 (hb z hz)).1) o
      ((ops_unlink_sublist b).subset ho), fun hmem => ?_⟩
    have hin := hp.parent_of_mem_ops ((h.ops b).subset ((ops_unlink_sublist b).subset ho))
    by_cases hne : o = d
    · rw [block_unlink, h.parent, ← hne, if_pos hin] at ho
      simp at ho
    · obtain ⟨c, hc, hparent⟩ := h.around_of_mem_subtree hp hd hmem hne
      rw [Program.parentOp?, hin, ← h.owner] at hparent
      exact (isLive_eraseOp.1 (hb c hparent)).2 hc

end Thins

/-- Whatever is no terminator may be erased. -/
theorem Prunes.eraseOp (h : p.Prunes q) (hp : p.Linked) (hd : d.index < q.ops.size)
    (hkind : (q.kind d).isTerminator = false) : p.Prunes (q.eraseOp d) := by
  refine ⟨h.toThins.eraseOp hp hd, fun z hz o ho hterm => ?_⟩
  obtain ⟨hlive, hnot⟩ := isLive_eraseOp.1 hz
  refine isLive_eraseOp.2 ⟨h.ends z hlive o ho hterm, fun hmem => ?_⟩
  by_cases hne : o = d
  · rw [hne, ← h.kind, hkind] at hterm
    cases hterm
  · obtain ⟨c, hc, hparent⟩ := h.around_of_mem_subtree hp hd hmem hne
    obtain rfl := Option.some.inj ((hp.mem_nested_iff.1 ho).2.symm.trans hparent)
    exact hnot hc

/-- What is left is laid out as it was. -/
theorem Prunes.laidOut_eraseOp (h : p.Prunes q) (hp : p.WellFormed) (hd : d.index < q.ops.size)
    (hkind : (q.kind d).isTerminator = false) (ho : (q.eraseOp d).isLive o = true)
    (hlaid : q.LaidOut o) : (q.eraseOp d).LaidOut o := by
  obtain ⟨hlive, -⟩ := isLive_eraseOp.1 ho
  have htype : (q.eraseOp d).valueType = q.valueType :=
    funext fun v => congrArg (·.type) value_eraseOp
  refine hlaid.congr outline_eraseOp htype (by rw [operands_eraseOp])
    (fun v hv => hlaid.dep (deps_eraseOp ▸ hv)) fun b hb => ?_
  have hb : b ∈ (p.op o).regions := h.regions o ▸ hb
  refine signature_congr htype (by rw [block_eraseOp, args_unlink]) ?_
    fun _ _ => by rw [operands_eraseOp]
  obtain ⟨y, hy, hpy, -⟩ := h.terminator?_eq hp hlive hb
  obtain ⟨y', hy', hpy', -⟩ := (h.eraseOp hp.linked hd hkind).terminator?_eq hp ho hb
  rw [hy, hy', ← hpy, hpy']

theorem Scoped.eraseOp (h : p.Scoped q) (hp : p.WellFormed) (hd : q.isLive d = true)
    (hkind : (q.kind d).isTerminator = false)
    (hunused : ∀ o, q.isLive o = true → ∀ v ∈ (q.op d).results, v ∉ q.used o) :
    p.Scoped (q.eraseOp d) := by
  have hprunes := h.prunes.eraseOp hp.linked (lt_of_isLive hd) hkind
  refine ⟨hprunes, fun o ho v hv => ?_, fun o ho => h.prunes.laidOut_eraseOp hp
    (lt_of_isLive hd) hkind ho (h.laidOut o (isLive_eraseOp.1 ho).1)⟩
  obtain ⟨hlive, -⟩ := isLive_eraseOp.1 ho
  have hp := hp.linked
  have hused : v ∈ q.used o := by
    rwa [used, operands_eraseOp, show ((q.eraseOp d).op o).deps = _ from deps_eraseOp] at hv
  have hview := h.wellScoped o hlive v hused
  refine h.inView_mono hp hprunes hlive ho hview ?_
  obtain ⟨hvisible, ⟨b, hb⟩ | ⟨z, hz, hres⟩⟩ := (h.prunes.inView_iff hp hlive).1 hview
  · exact Or.inl ⟨b, by rwa [block_eraseOp, args_unlink]⟩
  · refine Or.inr ⟨z, isLive_eraseOp.2 ⟨hz, fun hmem => ?_⟩, ?_⟩
    · have hne : z ≠ d := fun heq => hunused o hlive v (heq ▸ hres) hused
      obtain ⟨c, hc, hparent⟩ := h.prunes.around_of_mem_subtree hp (lt_of_isLive hd) hmem hne
      -- what sees a result of `z` lies in what is around `z`
      have hdefines := (hp.definingOp?_of_result (h.prunes.results z ▸ hres)).1
      obtain ⟨a, ha, hbefore⟩ := hp.precedes_of_visible hvisible hdefines
      have halive := hprunes.isLive_of_outer ho ha
      have hclive := hprunes.around a c halive
        (by rw [hprunes.parentOp?, ← (parent_eq_of_isBefore hbefore).2, hparent])
      exact (isLive_eraseOp.1 hclive).2 hc
    · exact (show ((q.eraseOp d).op z).results = _ from congrArg (·.results) outline_eraseOp) ▸ hres

/-! ## Removed parameters -/

theorem hierarchyPairs_eq {level : Level} {ids : Nat} (hkind : q.kind o = .hierarchy level ids)
    (hbody : q.body? o = some b) :
    q.hierarchyPairs o = (q.op o).operands.zip ((q.block b).args.drop ids) := by
  rw [hierarchyPairs, hkind, hbody]

theorem value_modifyValue (f : Value → Value) : (q.modifyValue v f).value w =
    if w = v ∧ w.index < q.values.size then f (q.value w) else q.value w := by
  rw [value, modifyValue, Array.getElem?_modify]
  by_cases hw : w = v
  · subst hw
    by_cases hlt : w.index < q.values.size
    · rw [if_pos rfl, if_pos ⟨rfl, hlt⟩, value, Array.getElem?_eq_getElem hlt]
      rfl
    · rw [if_pos rfl, if_neg fun h => hlt h.2, value, Array.getElem?_eq_none (Nat.le_of_not_lt hlt)]
      rfl
  · rw [if_neg fun h => hw (congrArg ValueId.mk h.symm), if_neg fun h => hw h.1]
    rfl

/-- Values are told their places anew, and nothing else. -/
theorem value_renumber (l : List (ValueId × Nat)) (q : Program) :
    (l.foldl (fun p (e : ValueId × Nat) =>
      p.modifyValue e.1 fun value => { value with origin := .arg b e.2 }) q).value w = q.value w ∨
      ∃ e ∈ l, e.1 = w ∧ (l.foldl (fun p (e : ValueId × Nat) =>
        p.modifyValue e.1 fun value => { value with origin := .arg b e.2 }) q).value w =
          { q.value w with origin := .arg b e.2 } := by
  induction l generalizing q with
  | nil => exact Or.inl rfl
  | cons e l ih =>
    have hstep := value_modifyValue (q := q) (v := e.1) (w := w)
      fun value => { value with origin := .arg b e.2 }
    rw [List.foldl_cons]
    rcases ih (q.modifyValue e.1 fun value => { value with origin := .arg b e.2 }) with
      h | ⟨x, hx, hxw, h⟩
    · rw [h, hstep]
      split
      · next hw => exact Or.inr ⟨e, List.mem_cons_self, hw.1.symm, rfl⟩
      · exact Or.inl rfl
    · refine Or.inr ⟨x, List.mem_cons_of_mem _ hx, hxw, ?_⟩
      rw [h, hstep]
      split <;> rfl

theorem tables_renumber (l : List (ValueId × Nat)) (q : Program) :
    let r := l.foldl (fun p (e : ValueId × Nat) =>
      p.modifyValue e.1 fun value => { value with origin := .arg b e.2 }) q
    r.ops = q.ops ∧ r.values.size = q.values.size ∧ r.blocks = q.blocks ∧ r.funcs = q.funcs := by
  induction l generalizing q with
  | nil => exact ⟨rfl, rfl, rfl, rfl⟩
  | cons e l ih =>
    obtain ⟨hops, hsize, hrest⟩ := ih (q.modifyValue e.1 _)
    exact ⟨hops, hsize.trans Array.size_modify, hrest⟩

theorem tables_renumberArgs (q : Program) (b : BlockId) : (q.renumberArgs b).ops = q.ops ∧
    (q.renumberArgs b).values.size = q.values.size ∧ (q.renumberArgs b).blocks = q.blocks ∧
      (q.renumberArgs b).funcs = q.funcs :=
  tables_renumber _ q

/-- Only arguments of the block are told their places. -/
theorem value_renumberArgs (q : Program) (b : BlockId) :
    (q.renumberArgs b).value w = q.value w ∨ w ∈ (q.block b).args ∧
      ∃ j, (q.renumberArgs b).value w = { q.value w with origin := .arg b j } := by
  rcases value_renumber (b := b) (w := w) (q.block b).args.zipIdx q with heq | ⟨e, he, rfl, heq⟩
  · exact Or.inl heq
  · exact Or.inr ⟨List.fst_mem_of_mem_zipIdx he, e.2, heq⟩

section removeParam

variable {level : Level} {ids : Nat}
variable (hkind : q.kind o = .hierarchy level ids) (hbody : q.body? o = some b)
include hkind hbody

theorem removeParam_eq : q.removeParam o i =
    ((q.modifyOp o fun o => { o with operands := o.operands.eraseIdx i }).modifyBlock b fun b =>
      { b with args := b.args.eraseIdx (ids + i) }).renumberArgs b := by
  rw [removeParam, hkind, hbody]

theorem op_removeParam : (q.removeParam o i).op z = if z = o ∧ z.index < q.ops.size
    then { q.op z with operands := (q.op z).operands.eraseIdx i } else q.op z := by
  rw [removeParam_eq hkind hbody, op, (tables_renumberArgs _ _).1]
  exact op_modifyOp _

theorem block_removeParam (c : BlockId) : (q.removeParam o i).block c =
    if b = c ∧ c.index < q.blocks.size
    then { q.block c with args := (q.block c).args.eraseIdx (ids + i) } else q.block c := by
  rw [removeParam_eq hkind hbody, block, (tables_renumberArgs _ _).2.2.1]
  exact block_modifyBlock _ _ _ _

theorem outline_removeParam : ((q.removeParam o i).op z).outline = (q.op z).outline := by
  rw [op_removeParam hkind hbody]
  split <;> rfl

theorem kind_removeParam : (q.removeParam o i).kind z = q.kind z :=
  congrArg (·.kind) (outline_removeParam hkind hbody)

theorem body?_removeParam : (q.removeParam o i).body? z = q.body? z :=
  congrArg (·.regions.head?) (outline_removeParam hkind hbody)

theorem isLive_removeParam : (q.removeParam o i).isLive z = q.isLive z := by
  rw [isLive, op_removeParam hkind hbody]
  split <;> rfl

theorem owner_removeParam (c : BlockId) :
    ((q.removeParam o i).block c).parentOp = (q.block c).parentOp := by
  rw [block_removeParam hkind hbody]
  split <;> rfl

theorem ops_removeParam (c : BlockId) :
    ((q.removeParam o i).block c).ops = (q.block c).ops := by
  rw [block_removeParam hkind hbody]
  split <;> rfl

theorem args_removeParam_sublist (c : BlockId) :
    ((q.removeParam o i).block c).args.Sublist (q.block c).args := by
  rw [block_removeParam hkind hbody]
  split
  · exact List.eraseIdx_sublist _ _
  · exact List.Sublist.refl _

theorem value_removeParam : (q.removeParam o i).value w = q.value w ∨ w ∈ (q.block b).args ∧
    ∃ j, (q.removeParam o i).value w = { q.value w with origin := .arg b j } := by
  rw [removeParam_eq hkind hbody]
  rcases value_renumberArgs _ b with heq | ⟨hw, j, heq⟩
  · exact Or.inl heq
  · refine Or.inr ⟨(args_removeParam_sublist (i := i) hkind hbody b).subset ?_, j, heq⟩
    rwa [removeParam_eq hkind hbody, block, (tables_renumberArgs _ _).2.2.1]

theorem Thins.removeParam (h : p.Thins q) (hp : p.Linked) : p.Thins (q.removeParam o i) := by
  have houtline := fun z => outline_removeParam (z := z) (i := i) hkind hbody
  have hparent : ∀ z, ((q.removeParam o i).op z).parent = (q.op z).parent := fun z =>
    congrArg (·.parent) (houtline z)
  constructor
  · rw [removeParam_eq hkind hbody, (tables_renumberArgs _ _).1]
    exact Array.size_modify.trans h.size_ops
  · rw [removeParam_eq hkind hbody, (tables_renumberArgs _ _).2.1]
    exact h.size_values
  · rw [removeParam_eq hkind hbody, (tables_renumberArgs _ _).2.2.1]
    exact Array.size_modify.trans h.size_blocks
  · rw [removeParam_eq hkind hbody, (tables_renumberArgs _ _).2.2.2]
    exact h.funcs
  · exact fun z => (houtline z).trans (h.outline z)
  · exact fun c => (owner_removeParam hkind hbody c).trans (h.owner c)
  · intro w
    rw [← h.definingOp?]
    rcases value_removeParam (w := w) (i := i) hkind hbody with heq | ⟨hw, j, heq⟩
    · rw [Program.definingOp?, heq, ← Program.definingOp?]
    · rw [h.definingOp?, hp.definingOp?_of_arg (h.args b w hw), Program.definingOp?, heq]
  · intro w
    have howner : ((q.removeParam o i).block b).parentOp = some o := by
      rw [owner_removeParam hkind hbody, h.owner]
      exact (hp.mem_regions o b).1 (List.mem_of_head? (h.regions o ▸ hbody))
    rcases value_removeParam (w := w) (i := i) hkind hbody with heq | ⟨hw, j, heq⟩
    · rw [← h.carriedOwner?, carriedOwner?_congr heq (owner_removeParam hkind hbody) fun z =>
        kind_removeParam hkind hbody]
    · -- an argument of a call is not carried by a loop
      obtain ⟨k, harg, -⟩ := hp.argOwner?_of_mem (h.args b w hw)
      rw [Program.carriedOwner?, Program.carriedOwner?, harg, argOwner?, heq]
      simp only [howner]
      rw [← h.owner, ← owner_removeParam (i := i) hkind hbody, howner, Option.filter_some,
        Option.filter_some, kind_removeParam hkind hbody, ← h.kind, hkind]
      rfl
  · intro w
    rw [← h.valueType]
    rcases value_removeParam (w := w) (i := i) hkind hbody with heq | ⟨-, j, heq⟩ <;>
      rw [Program.valueType, Program.valueType, heq]
  · intro w
    rw [← h.givenName?]
    rcases value_removeParam (w := w) (i := i) hkind hbody with heq | ⟨-, j, heq⟩ <;>
      rw [Program.givenName?, Program.givenName?, heq]
  · exact fun c => (args_removeParam_sublist hkind hbody c).trans (h.args_sublist c)
  · exact fun c => ops_removeParam hkind hbody c ▸ h.ops c
  · intro z hz
    rw [isLive_removeParam hkind hbody] at hz
    rw [hparent, ops_removeParam hkind hbody]
    exact h.listed z hz
  · intro z c hz hc
    rw [isLive_removeParam hkind hbody] at hz ⊢
    rw [Program.parentOp?, hparent, owner_removeParam hkind hbody] at hc
    exact h.around z c hz hc
  · intro c hc z hz
    simp only [owner_removeParam hkind hbody, ops_removeParam hkind hbody,
      isLive_removeParam hkind hbody] at hc hz ⊢
    exact h.within c hc z hz

theorem Prunes.removeParam (h : p.Prunes q) (hp : p.Linked) : p.Prunes (q.removeParam o i) := by
  refine ⟨h.toThins.removeParam hkind hbody hp, fun z hz x hx hterm => ?_⟩
  rw [isLive_removeParam hkind hbody] at hz ⊢
  exact h.ends z hz x hx hterm

/-- A call with one parameter and one argument less is laid out. -/
theorem LaidOut.removeParam (h : q.LaidOut o) (ho : o.index < q.ops.size)
    (hb : b.index < q.blocks.size) (htype : (q.removeParam o i).valueType = q.valueType) : (q.removeParam o i).LaidOut o := by
  have hkind' := (kind_removeParam (z := o) (i := i) hkind hbody).trans hkind
  have houtline := outline_removeParam (z := o) (i := i) hkind hbody
  have hregions : ((q.removeParam o i).op o).regions = (q.op o).regions :=
    congrArg (·.regions) houtline
  have hresults : ((q.removeParam o i).op o).results = (q.op o).results :=
    congrArg (·.results) houtline
  have hdeps : ((q.removeParam o i).op o).deps = (q.op o).deps := by
    rw [op_removeParam hkind hbody]
    split <;> rfl
  obtain ⟨hsync, htokens, hshape⟩ := h
  rw [hkind] at hshape
  obtain ⟨hres, hnot, body, hbodies, hargs⟩ := hshape
  obtain ⟨b', hb', rfl⟩ := List.map_eq_singleton_iff.1 hbodies
  obtain rfl : b' = b := by
    rw [body?, hb', List.head?_cons] at hbody
    exact Option.some.inj hbody
  rw [LaidOut, OpKind.Layout, htype, hdeps, hkind', hresults, hregions, hb']
  refine ⟨fun hasync => hsync (hkind ▸ hasync), htokens, hres, ?_, _, rfl, ?_⟩
  · rw [op_removeParam hkind hbody, if_pos ⟨rfl, ho⟩]
    exact fun hmem => hnot (List.map_subset _ (fun _ h => List.eraseIdx_subset h) hmem)
  · have hmap : ∀ (vs : List ValueId) n,
        (vs.eraseIdx n).map q.valueType = (vs.map q.valueType).eraseIdx n := fun vs n => by
      simp only [List.eraseIdx_eq_take_drop_succ, List.map_append, List.map_take, List.map_drop]
    have hargs : (q.block b').args.map q.valueType = _ := hargs
    rw [signature, htype, block_removeParam hkind hbody, if_pos ⟨rfl, hb⟩,
      op_removeParam hkind hbody, if_pos ⟨rfl, ho⟩, hmap, hmap, hargs,
      List.eraseIdx_append_of_length_le (by simp), List.length_replicate, Nat.add_sub_cancel_left]

/-- The other operations are laid out as they were. -/
theorem Prunes.laidOut_removeParam (h : p.Prunes q) (hp : p.WellFormed) (hz : q.isLive z = true)
    (hlaid : q.LaidOut z) : (q.removeParam o i).LaidOut z := by
  have hprunes := h.removeParam hkind hbody hp.linked (i := i)
  have htype : (q.removeParam o i).valueType = q.valueType :=
    funext fun w => (hprunes.valueType w).trans (h.valueType w).symm
  have hown := (hp.linked.mem_regions o b).1 (List.mem_of_head? (h.regions o ▸ hbody))
  by_cases hzo : z = o
  · rw [hzo] at hz hlaid ⊢
    have hb := h.size_blocks.symm ▸ Linked.block_lt_of_owner hown
    exact hlaid.removeParam hkind hbody (lt_of_isLive hz) hb htype
  have hop : ∀ x, x ≠ o → (q.removeParam o i).op x = q.op x := fun x hx => by
    rw [op_removeParam hkind hbody, if_neg fun h => hx h.1]
  refine hlaid.congr (by rw [hop z hzo]) htype (by rw [hop z hzo])
    (fun v hv => hlaid.dep (by rwa [deps, hop z hzo] at hv)) fun c hc => ?_
  have hc : c ∈ (p.op z).regions := h.regions z ▸ hc
  refine signature_congr htype ?_ ?_ fun y hy => ?_
  · -- the block is no body of the call
    rw [block_removeParam hkind hbody, if_neg]
    rintro ⟨rfl, -⟩
    exact hzo (Option.some.inj (((hp.linked.mem_regions z b).1 hc).symm.trans hown))
  · obtain ⟨y, hy, hpy, -⟩ := h.terminator?_eq hp hz hc
    obtain ⟨y', hy', hpy', -⟩ := hprunes.terminator?_eq hp
      (isLive_removeParam hkind hbody ▸ hz) hc
    rw [hy, hy', ← hpy, hpy']
  · rw [hop y]
    rintro rfl
    have hterm := (Option.filter_eq_some_iff.1 hy).2
    rw [hkind] at hterm
    cases hterm

theorem Scoped.removeParam (h : p.Scoped q) (hp : p.WellFormed)
    (hpair : (q.hierarchyPairs o)[i]? = some (w, v))
    (hunused : ∀ z, q.isLive z = true → v ∉ q.used z) : p.Scoped (q.removeParam o i) := by
  have hprunes := h.prunes.removeParam hkind hbody hp.linked (i := i)
  refine ⟨hprunes, fun z hz x hx => ?_, fun z hz => ?_⟩
  case refine_2 =>
    have hlive := isLive_removeParam hkind hbody ▸ hz
    exact h.prunes.laidOut_removeParam hkind hbody hp hlive (h.laidOut z hlive)
  have hp := hp.linked
  have hlive := isLive_removeParam hkind hbody ▸ hz
  have hused : x ∈ q.used z := by
    rw [used, op_removeParam hkind hbody] at hx
    split at hx
    · exact List.mem_append.2 ((List.mem_append.1 hx).imp_left (List.eraseIdx_subset ·))
    · exact hx
  have hview := h.wellScoped z hlive x hused
  refine h.inView_mono hp hprunes hlive hz hview ?_
  obtain ⟨-, ⟨c, hc⟩ | ⟨y, hy, hres⟩⟩ := (h.prunes.inView_iff hp hlive).1 hview
  · refine Or.inl ⟨c, ?_⟩
    rw [block_removeParam hkind hbody]
    split
    · next hbc =>
      -- only the unused parameter goes
      obtain ⟨rfl, -⟩ := hbc
      rw [hierarchyPairs_eq hkind hbody] at hpair
      have harg := (List.getElem?_zip_eq_some.1 hpair).2
      rw [List.getElem?_drop] at harg
      obtain ⟨j, hj⟩ := List.mem_iff_getElem?.1 hc
      refine List.mem_eraseIdx_iff_getElem?.2 ⟨j, fun heq => ?_, hj⟩
      rw [heq, harg] at hj
      obtain rfl := Option.some.inj hj
      exact hunused z hlive hused
    · exact hc
  · refine Or.inr ⟨y, by rwa [isLive_removeParam hkind hbody], ?_⟩
    rwa [show ((q.removeParam o i).op y).results = _ from
      congrArg (·.results) (outline_removeParam hkind hbody)]

/-- The pairs before the removed one stay as they are. -/
theorem getElem?_hierarchyPairs_removeParam (hj : j < i) :
    ((q.removeParam o i).hierarchyPairs o)[j]? = (q.hierarchyPairs o)[j]? := by
  have hkind' := (kind_removeParam (z := o) (i := i) hkind hbody).trans hkind
  have hbody' := (body?_removeParam (z := o) (i := i) hkind hbody).trans hbody
  have hoperands : ((q.removeParam o i).op o).operands[j]? = (q.op o).operands[j]? := by
    rw [op_removeParam hkind hbody]
    split
    · exact List.getElem?_eraseIdx_of_lt hj
    · rfl
  have hargs : (((q.removeParam o i).block b).args.drop ids)[j]? =
      ((q.block b).args.drop ids)[j]? := by
    rw [List.getElem?_drop, List.getElem?_drop, block_removeParam hkind hbody]
    split
    · exact List.getElem?_eraseIdx_of_lt (Nat.add_lt_add_left hj ids)
    · rfl
  rw [hierarchyPairs_eq hkind' hbody', hierarchyPairs_eq hkind hbody, List.zip_eq_zipWith,
    List.zip_eq_zipWith, List.getElem?_zipWith, List.getElem?_zipWith, hoperands, hargs]

end removeParam

end AsyncOrder.Program
