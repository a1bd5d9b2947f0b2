import AsyncOrder.Proofs.Lowering.Naming
import AsyncOrder.Proofs.Lowering.Ordering
import AsyncOrder.Proofs.Lowering.Rereading
import AsyncOrder.Proofs.Lowering.Spelling
import AsyncOrder.Proofs.Program.Placeholders

/-!
# Printing and reading again

An accepted program lists its entities in the order in which reading its text creates them, so
what is read from its text is the program itself, but for positions and the names of values that
had none:

    readProgram source = .ok p →
      ∃ q, readProgram p.text = .ok q ∧ q.strip true = p.named.strip true    (reread_program)
-/

namespace AsyncOrder

open Entity (numbering Distinct)
open Lowering (isRank Ordered Named)

namespace Program

variable {p q : Program} {h : List Entity} {o : OpId} {b : BlockId} {v : ValueId} {name : String}

/-! ## What can be spelled -/

theorem isInt64_of_isRank {n : Nat} (h : isRank n = true) : isInt64 n = true := by
  simp only [isRank, isInt64, Bool.and_eq_true, decide_eq_true_eq] at h ⊢
  omega

theorem Spelt.spellable (hp : p.Spelt) : p.Spellable where
  names v := by
    cases hv : p.givenName? v with
    | none =>
      rw [valueName_of_none hv]
      exact valid_placeholder v.index
    | some n =>
      rw [valueName_of_some hv]
      exact (hp.values v).name n hv
  ranks v rank space htype := isInt64_of_isRank ((hp.values v).type rank space htype)
  numbers o := (hp.kinds o).number
  channels o := (hp.kinds o).channel
  funcs := hp.funcs

/-! ## Numbers in order -/

theorem idxOf_numbers {α : Type} [DecidableEq α] {f : Nat → α} (hf : ∀ i j, f i = f j → i = j)
    {i n : Nat} (hi : i < n) : ((List.range n).map f).idxOf (f i) = i := by
  have hnodup : ((List.range n).map f).Nodup :=
    List.Nodup.map (fun i j h => hf i j h) List.nodup_range
  have hlt : i < ((List.range n).map f).length := by simpa using hi
  have hget : ((List.range n).map f)[i] = f i := by simp
  rw [← hget, hnodup.idxOf_getElem i hlt]

namespace InOrder

variable (hh : p.InOrder h)
include hh

theorem numbering_op (ho : o.index < p.ops.size) : (numbering h).op o = o := by
  rw [numbering, hh.ops]
  exact congrArg OpId.mk (idxOf_numbers (fun _ _ => congrArg OpId.index) ho)

theorem numbering_value (hv : v.index < p.values.size) : (numbering h).value v = v := by
  rw [numbering, hh.values]
  exact congrArg ValueId.mk (idxOf_numbers (fun _ _ => congrArg ValueId.index) hv)

theorem numbering_block (hb : b.index < p.blocks.size) : (numbering h).block b = b := by
  rw [numbering, hh.blocks]
  exact congrArg BlockId.mk (idxOf_numbers (fun _ _ => congrArg BlockId.index) hb)

theorem mem_op (ho : o.index < p.ops.size) : .op o ∈ h := by
  rw [← Entity.mem_ops, hh.ops]
  exact List.mem_map.2 ⟨o.index, List.mem_range.2 ho, rfl⟩

theorem mem_value (hv : v.index < p.values.size) : .value v ∈ h := by
  rw [← Entity.mem_values, hh.values]
  exact List.mem_map.2 ⟨v.index, List.mem_range.2 hv, rfl⟩

theorem mem_block (hb : b.index < p.blocks.size) : .block b ∈ h := by
  rw [← Entity.mem_blocks, hh.blocks]
  exact List.mem_map.2 ⟨b.index, List.mem_range.2 hb, rfl⟩

theorem distinct : Distinct h where
  ops := by
    rw [hh.ops]
    exact List.Nodup.map (fun _ _ => congrArg OpId.index) List.nodup_range
  values := by
    rw [hh.values]
    exact List.Nodup.map (fun _ _ => congrArg ValueId.index) List.nodup_range
  blocks := by
    rw [hh.blocks]
    exact List.Nodup.map (fun _ _ => congrArg BlockId.index) List.nodup_range

end InOrder

/-! ## Equal programs -/

/-- Programs with the same entities and functions are equal. -/
theorem eq_of_entities (hops : q.ops.size = p.ops.size) (hvalues : q.values.size = p.values.size)
    (hblocks : q.blocks.size = p.blocks.size) (hop : ∀ o, o.index < p.ops.size → q.op o = p.op o)
    (hvalue : ∀ v, v.index < p.values.size → q.value v = p.value v)
    (hblock : ∀ b, b.index < p.blocks.size → q.block b = p.block b) (hfuncs : q.funcs = p.funcs) :
    q = p := by
  obtain ⟨ops, values, blocks, funcs⟩ := q
  obtain ⟨ops', values', blocks', funcs'⟩ := p
  obtain rfl : ops = ops' := by
    refine Array.ext hops fun i hi hi' => ?_
    have h := hop ⟨i⟩ hi'
    simpa only [op, Array.getElem?_eq_getElem hi, Array.getElem?_eq_getElem hi',
      Option.getD_some] using h
  obtain rfl : values = values' := by
    refine Array.ext hvalues fun i hi hi' => ?_
    have h := hvalue ⟨i⟩ hi'
    simpa only [value, Array.getElem?_eq_getElem hi, Array.getElem?_eq_getElem hi',
      Option.getD_some] using h
  obtain rfl : blocks = blocks' := by
    refine Array.ext hblocks fun i hi hi' => ?_
    have h := hblock ⟨i⟩ hi'
    simpa only [block, Array.getElem?_eq_getElem hi, Array.getElem?_eq_getElem hi',
      Option.getD_some] using h
  obtain rfl := hfuncs
  rfl

section

variable (hp : p.Linked) (hq : q.Linked)
variable (hop : ∀ o, (q.op o).strip true = (p.op o).strip true)
include hp hq hop

/-- Which operations a block holds and who owns it can be read off the operations. -/
theorem Linked.block_eq (hops : q.ops.size = p.ops.size)
    (hargs : ∀ b, (q.block b).args = (p.block b).args) (b : BlockId) : q.block b = p.block b := by
  have hmem : ∀ o, o ∈ (q.block b).ops ↔ o ∈ (p.block b).ops := by
    intro o
    have hparent := congrArg Operation.parent (hop o)
    rw [parent_strip, parent_strip] at hparent
    rw [hq.mem_ops, hp.mem_ops, hops, hparent]
  have hblock : (q.block b).ops = (p.block b).ops :=
    List.Perm.eq_of_pairwise (fun x y _ _ hxy hyx => absurd hxy (Nat.lt_asymm hyx)) (hq.sorted b)
      (hp.sorted b) ((List.perm_ext_iff_of_nodup (hq.nodup_ops b) (hp.nodup_ops b)).2 hmem)
  have howner : (q.block b).parentOp = (p.block b).parentOp := by
    refine Option.ext fun o => ?_
    rw [← hq.mem_regions, ← hp.mem_regions, (Operation.parts_of_strip (hop o)).2.2.2.2]
  have hargs := hargs b
  cases hqb : q.block b
  cases hpb : p.block b
  simp_all

/-- So can be where a value comes from. -/
theorem Linked.origin_eq (hargs : ∀ b, (q.block b).args = (p.block b).args) (hv : v.index < p.values.size) :
    (q.value v).origin = (p.value v).origin := by
  cases h : (p.value v).origin with
  | result o i =>
    have hi := (hp.results o i v).2 ⟨hv, h⟩
    rw [← (Operation.parts_of_strip (hop o)).2.2.2.1] at hi
    exact ((hq.results o i v).1 hi).2
  | arg b i =>
    have hi := (hp.args b i v).2 ⟨hv, h⟩
    rw [← hargs b] at hi
    exact ((hq.args b i v).1 hi).2

end

theorem Renaming.map_eq {α : Type} {f : α → α} {l : List α} (h : ∀ a ∈ l, f a = a) : l.map f = l :=
  (List.map_congr_left h).trans l.map_id

/-- A copy of a program whose history has all of its entities in order is the program itself. -/
theorem Mirrors.strip_eq (hm : p.Mirrors h h p.funcs q) (hp : p.WellFormed) (hq : q.Linked)
    (hh : p.InOrder h) : q.strip true = p.named.strip true := by
  have hops : q.ops.size = p.ops.size := by rw [hm.size_ops, hh.ops]; simp
  have hvalues : q.values.size = p.values.size := by rw [hm.size_values, hh.values]; simp
  have hblocks : q.blocks.size = p.blocks.size := by rw [hm.size_blocks, hh.blocks]; simp
  have hop : ∀ o, (q.op o).strip true = (p.op o).strip true := by
    intro o
    by_cases ho : o.index < p.ops.size
    · have hstands := hm.op o (hh.mem_op ho)
      rw [hh.numbering_op ho] at hstands
      rw [hstands, Renaming.operation,
        Renaming.map_eq fun v hv => hh.numbering_value (hp.used o ho v (List.mem_append_left _ hv)),
        Renaming.map_eq fun v hv => hh.numbering_value (hp.used o ho v (List.mem_append_right _ hv)),
        Renaming.map_eq fun v hv => hh.numbering_value (hp.linked.result_lt hv),
        Renaming.map_eq fun b hb => hh.numbering_block
          (Linked.block_lt_of_owner ((hp.linked.mem_regions o b).1 hb)),
        hh.numbering_block (hp.linked.parent_lt ho), ← hp.linked.live o ho]
      rfl
    · rw [op_of_size_le (Nat.le_of_not_lt ho), op_of_size_le (by omega)]
  have hargs : ∀ b, (q.block b).args = (p.block b).args := by
    intro b
    by_cases hb : b.index < p.blocks.size
    · have hstands := congrArg Block.args (hm.block b (hh.mem_block hb))
      rw [hh.numbering_block hb] at hstands
      exact hstands.trans (Renaming.map_eq fun v hv => hh.numbering_value (hp.linked.arg_lt hv))
    · rw [block_of_size_le (Nat.le_of_not_lt hb), block_of_size_le (by omega)]
  refine eq_of_entities ?_ ?_ hblocks ?_ ?_ ?_ ?_
  · rw [size_ops_strip, size_ops_strip]
    exact hops
  · exact hvalues.trans Array.size_mapIdx.symm
  · intro o _
    rw [op_strip, op_strip]
    exact hop o
  · intro v hv
    have hv : v.index < p.values.size := Nat.lt_of_lt_of_eq hv Array.size_mapIdx
    obtain ⟨htype, hname⟩ := hm.value v (hh.mem_value hv)
    rw [hh.numbering_value hv] at htype hname
    have horigin := hp.linked.origin_eq hq hop hargs hv
    rw [value_strip, value_strip, value_named hv, ← horigin]
    show q.value v = ⟨p.valueType v, _, some (p.valueName v)⟩
    rw [← htype, ← hname]
    rfl
  · intro b _
    exact hp.linked.block_eq hq hop hops hargs b
  · rw [funcs_strip, hm.funcs]
    refine Renaming.map_eq fun f hf => ?_
    have hbody := ((hp.mem_bodies f.body).1 (List.mem_map_of_mem hf)).1
    rw [hh.numbering_block hbody]

end Program

/-! ## Accepted programs -/

variable {source : String} {p q : Program}

theorem inOrder_of_readProgram (h : readProgram source = .ok p) : p.InOrder p.history :=
  (Lowering.ordered_of_steps (steps_of_readProgram h)).inOrder (wellFormed_of_readProgram h).linked

/-- What an accepted text spells can be read again. -/
theorem readable_of_readProgram (h : readProgram source = .ok p) (hapart : p.namedApart = true) :
    p.Readable := by
  have hsteps := steps_of_readProgram h
  have hp := wellFormed_of_readProgram h
  have hlinked := hp.linked
  have hordered := Lowering.ordered_of_steps hsteps
  have hinorder := hordered.inOrder hlinked
  have hnamed := Lowering.named_of_steps hsteps
  have hlive : ∀ b, ∀ o ∈ (p.block b).ops, p.isLive o = true := by
    intro b o ho
    rw [Program.isLive, hlinked.live o (hlinked.size_of_mem_ops ho)]
    rfl
  exact {
    laidOut o ho := hp.laidOut o (Program.lt_of_isLive ho)
    nested o _ z hz := by
      obtain ⟨b, -, hz⟩ := List.mem_flatMap.1 hz
      exact hlive b z hz
    bodies f _ := hlive f.body
    shallow f _ := hordered.shallow hlinked (by omega)
    parent b o _ ho := hlinked.parent_of_mem_ops ho
    owner o _ b := (hlinked.mem_regions o b).1
    root f hf := ((hp.mem_bodies f.body).1 (List.mem_map_of_mem hf)).2
    orderly := hp.orderly
    complete o ho := hp.complete o (Program.lt_of_isLive ho)
    ascending := by
      rw [hinorder.ops]
      exact List.pairwise_map.2 List.pairwise_lt_range
    sorted := hlinked.sorted
    distinct := hinorder.distinct
    ranks v := ((spelt_of_readProgram h).values v).type
    names b := Program.nodup_valueNames hapart (hlinked.nodup_locals b) (hnamed.distinct b)
    called o ho v hv := by
      obtain ⟨n, hmeans⟩ := hnamed.means o (Program.lt_of_isLive ho) v hv
      exact hmeans.shown hapart }

/-- Reading the text of an accepted program gives the program back, and that prints the same. -/
theorem reread_program (h : readProgram source = .ok p) (hapart : p.namedApart = true) :
    ∃ q, readProgram p.text = .ok q ∧ q.strip true = p.named.strip true ∧ q.text = p.text := by
  have hp := wellFormed_of_readProgram h
  obtain ⟨q, hq, hmirrors⟩ :=
    (readable_of_readProgram h hapart).readProgram_text (spelt_of_readProgram h).spellable
  have hsame := hmirrors.strip_eq hp (wellFormed_of_readProgram hq).linked (inOrder_of_readProgram h)
  refine ⟨q, hq, hsame, ?_⟩
  rw [← Program.text_strip, hsame, Program.text_strip, Program.text_named]

/-- The call and the join in it have no names, and the body gets its end when it is read. -/
def namelessJoin : String := "func @f(%c: index) \x7b
  %t = join
  herd [%t] args(%_a = %c) \x7b
    join
  \x7d
\x7d
"

theorem reread_program_namelessJoin : ∃ p q, readProgram namelessJoin = .ok p ∧
    readProgram p.text = .ok q ∧ q.strip true = p.named.strip true ∧ q.text = p.text := by
  obtain ⟨p, hsource, hapart⟩ := accepts_iff.1
    (show accepts namelessJoin Program.namedApart = true by decide +kernel)
  obtain ⟨q, hq, hsame, htext⟩ := reread_program hsource hapart
  exact ⟨p, q, hsource, hq, hsame, htext⟩

end AsyncOrder
