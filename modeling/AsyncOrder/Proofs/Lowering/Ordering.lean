import AsyncOrder.Proofs.Lowering.Construction
import AsyncOrder.Proofs.Program.History

/-!
# Numbers follow the order of creation

While a program is put together, its blocks without owner are, in the order of their numbers, the
bodies of the finished functions and then, from the outermost site to the innermost, the block of
the site and the bodies that are ready.  So the history of a finished program lists its entities
in the order of their numbers.
-/

namespace AsyncOrder

namespace Program

/-- The blocks without owner, in order. -/
def unowned (p : Program) : List BlockId :=
  ((List.range p.blocks.size).map .mk).filter fun b => (p.block b).parentOp.isNone

/-- The history of a program that may still have blocks without owner. -/
def record (p : Program) : List Entity :=
  p.unowned.flatMap (p.blockHistory (p.opHistory p.ops.size))

/-- The list has the entities of each kind in the order of their numbers. -/
structure InOrder (p : Program) (h : List Entity) : Prop where
  ops : Entity.ops h = (List.range p.ops.size).map .mk
  values : Entity.values h = (List.range p.values.size).map .mk
  blocks : Entity.blocks h = (List.range p.blocks.size).map .mk

variable {p q : Program} {b : BlockId} {vs : List ValueId} {spec : OpSpec}

/-! ## Lists of numbers -/

theorem numbers_add {α : Type} (f : Nat → α) (n k : Nat) :
    (List.range (n + k)).map f = (List.range n).map f ++ (List.range' n k).map f := by
  rw [← List.map_append, List.range_eq_range', List.range_eq_range', ← List.range'_append_1,
    Nat.zero_add]

theorem nodup_unowned (p : Program) : p.unowned.Nodup := by
  refine List.Nodup.filter _ (List.Nodup.map ?_ List.nodup_range)
  exact fun i j h => congrArg BlockId.index h

theorem lt_of_mem_unowned (hb : b ∈ p.unowned) : b.index < p.blocks.size := by
  obtain ⟨i, hi, rfl⟩ := List.mem_map.1 (List.mem_of_mem_filter hb)
  exact List.mem_range.1 hi

/-! ## A new block -/

section addBlock

variable (args : List (Option String × ValueType))

theorem unowned_addBlock : (p.addBlock args).2.unowned = p.unowned ++ [⟨p.blocks.size⟩] := by
  rw [unowned, size_blocks_addBlock, List.range_succ, List.map_append, List.filter_append]
  congr 1
  · refine List.filter_congr fun b hb => ?_
    obtain ⟨i, hi, rfl⟩ := List.mem_map.1 hb
    rw [block_addBlock, if_neg (Nat.ne_of_lt (List.mem_range.1 hi))]
  · simp [block_addBlock]

theorem record_addBlock (hp : p.Linked) : (p.addBlock args).2.record =
    p.record ++ .block ⟨p.blocks.size⟩ :: (p.addValues (.arg ⟨p.blocks.size⟩) args).1.map .value := by
  rw [record, unowned_addBlock, List.flatMap_append, List.flatMap_singleton]
  congr 1
  · refine List.flatMap_congr fun b hb => ?_
    have hlt := lt_of_mem_unowned hb
    refine (grows_addBlock args).blockHistory hp hlt ?_
    rw [block_addBlock, if_neg (Nat.ne_of_lt hlt)]
  · rw [blockHistory, block_addBlock, if_pos rfl]
    exact congrArg _ (List.append_nil _)

theorem InOrder.addBlock (hp : p.Linked) (h : p.InOrder p.record) :
    (p.addBlock args).2.InOrder (p.addBlock args).2.record := by
  rw [record_addBlock args hp]
  constructor
  · rw [Entity.ops_append, (Entity.lists_block _ _).1, List.append_nil, h.ops, ops_addBlock]
  · rw [Entity.values_append, (Entity.lists_block _ _).2.1, h.values, size_values_addBlock, numbers_add]
    rfl
  · rw [Entity.blocks_append, (Entity.lists_block _ _).2.2, h.blocks, size_blocks_addBlock,
      List.range_succ, List.map_append]
    rfl

theorem InOrder.addFunc (hp : p.Linked) (h : p.InOrder p.record) (name : String) :
    (p.addFunc name args).2.InOrder (p.addFunc name args).2.record := by
  have hrecord : (p.addFunc name args).2.record = (p.addBlock args).2.record := by
    have hhistory : (p.addFunc name args).2.opHistory = (p.addBlock args).2.opHistory :=
      funext (opHistory_congr (q := (p.addFunc name args).2) (p := (p.addBlock args).2) rfl rfl)
    rw [record, hhistory]
    rfl
  obtain ⟨hops, hvalues, hblocks⟩ := h.addBlock args hp
  rw [hrecord]
  exact ⟨hops, hvalues, hblocks⟩

end addBlock

/-! ## A new operation -/

section appendOp

variable (hfree : p.Free b spec.regions) {before : List BlockId}
variable (hunowned : p.unowned = before ++ b :: spec.regions)
include hfree hunowned

theorem Free.unowned_appendOp : (p.appendOp b spec).2.unowned = before ++ [b] := by
  have hfilter : (p.appendOp b spec).2.unowned =
      p.unowned.filter fun c => c ∉ spec.regions := by
    rw [unowned, unowned, size_blocks_appendOp, List.filter_filter]
    refine List.filter_congr fun c _ => ?_
    rw [hfree.block_appendOp]
    by_cases hc : c ∈ spec.regions <;> simp [hc]
  have hnodup := p.nodup_unowned
  rw [hunowned, List.nodup_append] at hnodup
  rw [hfilter, hunowned, List.filter_append, List.filter_cons_of_pos (by simpa using hfree.block_notMem)]
  congr 2
  · refine List.filter_eq_self.2 fun c hc => ?_
    simpa using fun hmem => hnodup.2.2 c hc c (List.mem_cons_of_mem _ hmem) rfl
  · exact List.filter_eq_nil_iff.2 fun c hc => by simpa using hc

theorem Free.record_appendOp (hp : p.Linked) : (p.appendOp b spec).2.record =
    p.record ++ .op ⟨p.ops.size⟩ :: (p.newResults spec).map .value := by
  have hgrow := hfree.grows
  have hshallow : ∀ c depth, p.ops.size ≤ depth → p.Shallow depth (p.block c).ops :=
    fun c depth hd => hp.shallow fun o ho => Nat.lt_of_lt_of_le (hp.size_of_mem_ops ho) hd
  have hold : ∀ depth, p.ops.size ≤ depth → ∀ c, c.index < p.blocks.size → c ≠ b →
      (p.appendOp b spec).2.blockHistory ((p.appendOp b spec).2.opHistory depth) c =
        p.blockHistory (p.opHistory p.ops.size) c := by
    intro depth hd c hc hne
    rw [hgrow.blockHistory hp hc]
    · exact blockHistory_depth (hshallow c depth hd) (hshallow c _ (Nat.le_refl _))
    · rw [hfree.block_appendOp, if_neg (Ne.symm hne)]
  have hnodup := p.nodup_unowned
  have hlt : ∀ c ∈ before, c.index < p.blocks.size ∧ c ≠ b := by
    rw [hunowned, List.nodup_append] at hnodup
    refine fun c hc => ⟨lt_of_mem_unowned ?_, hnodup.2.2 c hc b List.mem_cons_self⟩
    rw [hunowned]
    exact List.mem_append_left _ hc
  have hnew : (p.appendOp b spec).2.opHistory (p.ops.size + 1) ⟨p.ops.size⟩ =
      spec.regions.flatMap (p.blockHistory (p.opHistory p.ops.size)) ++
        .op ⟨p.ops.size⟩ :: (p.newResults spec).map .value := by
    rw [opHistory, op_appendOp, if_pos rfl]
    congr 1
    refine List.flatMap_congr fun c hc => hold _ (Nat.le_refl _) c (hfree.region_lt c hc) ?_
    exact fun heq => hfree.block_notMem (heq ▸ hc)
  have hblock : (p.appendOp b spec).2.blockHistory
      ((p.appendOp b spec).2.opHistory (p.ops.size + 1)) b =
        p.blockHistory (p.opHistory p.ops.size) b ++
          (p.appendOp b spec).2.opHistory (p.ops.size + 1) ⟨p.ops.size⟩ := by
    rw [blockHistory, hfree.block_appendOp, if_pos rfl, List.flatMap_append,
      List.flatMap_singleton, blockHistory, List.cons_append, List.append_assoc]
    congr 3
    refine List.flatMap_congr fun z hz => ?_
    rw [hgrow.opHistory hp (hp.size_of_mem_ops hz)]
    exact opHistory_depth (shallow_of_mem (hshallow b _ (Nat.le_succ _)) hz)
      (shallow_of_mem (hshallow b _ (Nat.le_refl _)) hz)
  rw [record, hfree.unowned_appendOp hunowned, size_ops_appendOp, List.flatMap_append,
    List.flatMap_singleton, hblock, hnew, record, hunowned, List.flatMap_append,
    List.flatMap_cons, List.append_assoc, List.append_assoc]
  congr 1
  refine List.flatMap_congr fun c hc => ?_
  exact hold _ (Nat.le_succ _) c (hlt c hc).1 (hlt c hc).2

theorem Free.inOrder_appendOp (hp : p.Linked) (h : p.InOrder p.record) :
    (p.appendOp b spec).2.InOrder (p.appendOp b spec).2.record := by
  rw [hfree.record_appendOp hunowned hp]
  constructor
  · rw [Entity.ops_append, (Entity.lists_op _ _).1, h.ops, size_ops_appendOp, List.range_succ,
      List.map_append]
    rfl
  · rw [Entity.values_append, (Entity.lists_op _ _).2.1, h.values, size_values_appendOp, numbers_add]
    rfl
  · rw [Entity.blocks_append, (Entity.lists_op _ _).2.2, List.append_nil, h.blocks,
      size_blocks_appendOp]

end appendOp

end Program

/-! ## Sites -/

namespace Lowering

open Program

/-- The block of a site and the bodies that are ready. -/
def Site.blocks (s : Site) : List BlockId := s.block :: s.bodies.map (·.2)

/-- The unowned blocks in order, the bodies of finished functions apart. -/
structure Arranged (p : Program) (sites : List Site) (closed : List BlockId) : Prop where
  unowned : p.unowned = closed ++ sites.reverse.flatMap Site.blocks
  bodies : p.funcs.map (·.body) = closed ++ (sites.getLast?.map Site.block).toList

structure Ordered (c : Construction) : Prop where
  arranged : ∃ closed, Arranged c.program c.sites closed
  /-- A body has a greater number than the block around it. -/
  inward : ∀ o, o.index < c.program.ops.size → ∀ b ∈ (c.program.op o).regions,
    (c.program.op o).parent.index < b.index
  history : c.program.InOrder c.program.record

theorem ordered_empty : Ordered ⟨.empty, []⟩ where
  arranged := ⟨[], rfl, rfl⟩
  inward _ ho := absurd ho (Nat.not_lt_zero _)
  history := ⟨rfl, rfl, rfl⟩

theorem sorted_unowned (p : Program) : p.unowned.Pairwise fun b c => b.index < c.index := by
  refine List.Pairwise.filter _ (List.pairwise_map.2 ?_)
  exact List.pairwise_lt_range

theorem Ordered.step {c d : Construction} (hsound : Sound c) (hc : Ordered c) (h : Step c d) :
    Ordered d := by
  obtain ⟨closed, hunowned, hbodies⟩ := hc.arranged
  cases h with
  | func p name args _ =>
    refine ⟨⟨closed, ?_, ?_⟩, hc.inward, ?_⟩
    · exact (unowned_addBlock args).trans (congrArg (· ++ _) (by simpa using hunowned))
    · simpa using hbodies
    · exact hc.history.addFunc args hsound.linked name
  | body p s outer region args _ hregion =>
    refine ⟨⟨closed, ?_, ?_⟩, hc.inward, hc.history.addBlock args hsound.linked⟩
    · rw [unowned_addBlock, hunowned]
      simp [Site.blocks]
    · simpa using hbodies
  | op p s outer spec hfits =>
    have hfree := hsound.free hfits
    have hlast : p.unowned = (closed ++ outer.reverse.flatMap Site.blocks) ++
        s.block :: spec.regions := by
      rw [hunowned, hfits.regions]
      simp [Site.blocks]
    refine ⟨⟨closed, ?_, ?_⟩, ?_, hfree.inOrder_appendOp hlast hsound.linked hc.history⟩
    · rw [hfree.unowned_appendOp hlast]
      simp [Site.blocks]
    · rw [Program.funcs_appendOp, hbodies]
      cases outer <;> simp
    · intro o ho b hb
      have ho : o.index < p.ops.size + 1 := p.size_ops_appendOp s.block spec ▸ ho
      rw [op_appendOp] at hb ⊢
      split at hb
      · next hnew =>
        rw [if_pos hnew]
        have hsorted := sorted_unowned p
        rw [hlast, List.pairwise_append, List.pairwise_cons] at hsorted
        exact hsorted.2.1.1 b hb
      · next hold =>
        rw [if_neg hold]
        exact hc.inward o (Nat.lt_of_le_of_ne (Nat.le_of_lt_succ ho) hold) b hb
  | close p s t outer hbody hregion hended =>
    refine ⟨⟨closed, ?_, ?_⟩, hc.inward, hc.history⟩
    · rw [hunowned]
      simp [Site.blocks, hbody]
    · rw [hbodies]
      cases outer <;> simp
  | finish p s hbody hregion =>
    refine ⟨⟨closed ++ [s.block], ?_, ?_⟩, hc.inward, hc.history⟩
    · rw [hunowned]
      simp [Site.blocks, hbody]
    · rw [hbodies]
      simp

theorem ordered_of_steps {c : Construction} (h : Steps ⟨.empty, []⟩ c) : Ordered c := by
  induction h with
  | refl => exact ordered_empty
  | tail hsteps hstep ih => exact ih.step (sound_empty.steps hsteps) hstep

/-! ## Finished programs -/

variable {p : Program}

theorem Ordered.bodies (h : Ordered ⟨p, []⟩) : p.funcs.map (·.body) = p.unowned := by
  obtain ⟨closed, hunowned, hbodies⟩ := h.arranged
  rw [hunowned, hbodies]
  rfl

/-- Fewer blocks are left, the deeper an operation lies. -/
theorem Ordered.shallow (h : Ordered ⟨p, []⟩) (hp : p.Linked) {depth : Nat} {b : BlockId}
    (hdepth : p.blocks.size ≤ b.index + depth) : p.Shallow depth (p.block b).ops := by
  induction depth generalizing b with
  | zero => exact congrArg Block.ops (block_of_size_le hdepth)
  | succ depth ih =>
    refine fun o ho => shallow_flatMap.2 fun c hc => ih ?_
    have := h.inward o (hp.size_of_mem_ops ho) c hc
    rw [hp.parent_of_mem_ops ho] at this
    omega

theorem Ordered.inOrder (h : Ordered ⟨p, []⟩) (hp : p.Linked) : p.InOrder p.history := by
  have hrecord : p.history = p.record := by
    rw [Program.history, Program.record, ← h.bodies, List.flatMap_map]
    refine List.flatMap_congr fun f _ => blockHistory_depth (h.shallow hp (by omega)) ?_
    exact hp.shallow fun o ho => hp.size_of_mem_ops ho
  rw [hrecord]
  exact h.history

end Lowering

end AsyncOrder
