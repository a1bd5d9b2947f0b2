import AsyncOrder.Proofs.Program.Stripping
import AsyncOrder.Proofs.Rewriting.Filling
import AsyncOrder.Proofs.Rewriting.Tokens

/-!
# Programs with other dependency lists

A program stays well-formed when its dependency lists are replaced, as long as only asynchronous
operations wait, on tokens that are visible to them.
-/

namespace AsyncOrder.Program

open Lowering

variable {p q : Program} {o z : OpId} {v : ValueId} {b : BlockId} {region : Region}

/-- Only asynchronous operations wait, on tokens that are visible to them. -/
theorem WellFormed.of_mem_deps (hp : p.WellFormed) (hv : v ∈ p.deps o) :
    (p.kind o).isAsync = true ∧ p.valueType v = .token ∧ p.Visible o v := by
  have ho := lt_of_mem_deps hv
  obtain ⟨hasync, htoken, -⟩ := hp.laidOut o ho
  refine ⟨?_, htoken _ (List.mem_map_of_mem hv), hp.visible o ho v (List.mem_append_right _ hv)⟩
  by_contra hnot
  rw [deps, List.map_eq_nil_iff.1 (hasync (Bool.eq_false_iff.2 hnot))] at hv
  exact absurd hv List.not_mem_nil

section

variable (h : q.strip false = p.strip false)
include h

theorem op_eq_of_strip (o : OpId) : (q.op o).strip false = (p.op o).strip false := by
  rw [← op_strip, h, op_strip]

theorem parent_eq_of_strip (o : OpId) : (q.op o).parent = (p.op o).parent := by
  rw [← @parent_strip false, op_eq_of_strip h, parent_strip]

theorem operands_eq_of_strip (o : OpId) : (q.op o).operands = (p.op o).operands := by
  rw [← @operands_strip false, op_eq_of_strip h, operands_strip]

theorem results_eq_of_strip (o : OpId) : (q.op o).results = (p.op o).results := by
  rw [← @results_strip false, op_eq_of_strip h, results_strip]

theorem regions_eq_of_strip (o : OpId) : (q.op o).regions = (p.op o).regions := by
  rw [← @regions_strip false, op_eq_of_strip h, regions_strip]

theorem kind_eq_of_strip (o : OpId) : q.kind o = p.kind o := by
  rw [← @kind_strip false, h, kind_strip]

theorem size_ops_of_strip : q.ops.size = p.ops.size := by
  rw [← @size_ops_strip false, h, size_ops_strip]

theorem block_eq_of_strip (b : BlockId) : q.block b = p.block b := by
  rw [← @block_strip false, h, block_strip]

theorem value_eq_of_strip (v : ValueId) : q.value v = p.value v := by
  rw [← @value_strip false, h, value_strip]

theorem values_eq_of_strip : q.values = p.values := by
  rw [← @values_strip false, h, values_strip]

theorem blocks_eq_of_strip : q.blocks = p.blocks := by
  have := congrArg Program.blocks h
  exact this

theorem funcs_eq_of_strip : q.funcs = p.funcs := by
  rw [← @funcs_strip false, h, funcs_strip]

theorem terminator?_eq_of_strip (b : BlockId) : q.terminator? b = p.terminator? b := by
  rw [← @terminator?_strip false, h, terminator?_strip]

theorem valueType_eq_of_strip : q.valueType = p.valueType := by
  funext v
  rw [← @valueType_strip false, h, valueType_strip]

theorem Linked.of_strip (hp : p.Linked) : q.Linked := by
  have hblock := block_eq_of_strip h
  have hsize := size_ops_of_strip h
  have hvalue := value_eq_of_strip h
  have hvalues := values_eq_of_strip h
  constructor
  · intro o ho
    have hlive : q.isLive o = p.isLive o := by rw [← @isLive_strip false, h, Program.isLive_strip]
    rw [Program.isLive, Program.isLive, hp.live o (hsize ▸ ho)] at hlive
    simpa using hlive
  · intro b o
    rw [hblock, hsize, parent_eq_of_strip h]
    exact hp.mem_ops b o
  · intro b
    rw [hblock]
    exact hp.sorted b
  · intro o b
    rw [hblock, regions_eq_of_strip h]
    exact hp.mem_regions o b
  · intro o
    rw [regions_eq_of_strip h]
    exact hp.nodup_regions o
  · intro b o z
    rw [hblock]
    exact hp.nested b o z
  · intro o i v
    rw [hvalue, hvalues, results_eq_of_strip h]
    exact hp.results o i v
  · intro b i v
    rw [hblock, hvalue, hvalues]
    exact hp.args b i v

theorem Visible.of_strip (hv : p.Visible o v) : q.Visible o v := by
  have hblock := block_eq_of_strip h
  have hparent := parent_eq_of_strip h
  induction hv with
  | arg hv => exact .arg (by rwa [hblock, hparent])
  | result hz hv =>
    refine .result ?_ (results_eq_of_strip h _ ▸ hv)
    rw [isBefore, position?, position?, hparent, hparent, hblock, hblock]
    exact hz
  | outer hz hk _ ih =>
    refine .outer ?_ (kind_eq_of_strip h _ ▸ hk) ih
    rw [parentOp?, hblock, hparent]
    exact hz
  | beyond h => exact h.elim

theorem orderly_of_strip (hb : Orderly p region b) : Orderly q region b := by
  constructor
  · intro o ho
    rw [kind_eq_of_strip h]
    exact hb.stands o (block_eq_of_strip h b ▸ ho)
  · intro o ho hkind
    rw [terminator?_eq_of_strip h]
    exact hb.last o (block_eq_of_strip h b ▸ ho) (kind_eq_of_strip h o ▸ hkind)

theorem signature_eq_of_strip : q.signature = p.signature := by
  funext b
  rw [signature, signature, block_eq_of_strip h, terminator?_eq_of_strip h,
    valueType_eq_of_strip h]
  simp only [operands_eq_of_strip h]

/-- The program stays well-formed as long as only asynchronous operations wait, on tokens that are
visible to them. -/
theorem WellFormed.of_strip (hp : p.WellFormed) (hdeps : ∀ o v, v ∈ q.deps o →
    (p.kind o).isAsync = true ∧ p.valueType v = .token ∧ p.Visible o v) : q.WellFormed := by
  have hsize := size_ops_of_strip h
  have hused : ∀ o, q.used o = (p.op o).operands ++ q.deps o := fun o => by
    rw [Program.used, operands_eq_of_strip h, deps]
  have hlinked := hp.linked.of_strip h
  constructor
  · exact hlinked
  · rw [funcs_eq_of_strip h]
    exact hp.nodup_bodies
  · intro b
    rw [funcs_eq_of_strip h, blocks_eq_of_strip h, block_eq_of_strip h]
    exact hp.mem_bodies b
  · intro f hf
    rw [funcs_eq_of_strip h] at hf
    exact orderly_of_strip h (hp.orderly f hf)
  · intro o ho
    rw [kind_eq_of_strip h, regions_eq_of_strip h]
    refine (hp.complete o (hsize ▸ ho)).imp fun r b hb => ⟨orderly_of_strip h hb.1, ?_⟩
    rw [terminator?_eq_of_strip h]
    exact hb.2
  · intro o ho v hv
    rw [hused, List.mem_append] at hv
    rw [values_eq_of_strip h]
    rcases hv with hv | hv
    · exact hp.used o (hsize ▸ ho) v (List.mem_append_left _ hv)
    · exact hp.linked.lt_of_visible (hdeps o v hv).2.2
  · intro o ho
    obtain ⟨-, -, hshape⟩ := hp.laidOut o (hsize ▸ ho)
    refine ⟨fun hkind => ?_, fun t ht => ?_, ?_⟩
    · rw [List.map_eq_nil_iff, List.eq_nil_iff_forall_not_mem]
      intro v hv
      rw [kind_eq_of_strip h, (hdeps o v hv).1] at hkind
      cases hkind
    · obtain ⟨v, hv, rfl⟩ := List.mem_map.1 ht
      rw [valueType_eq_of_strip h]
      exact (hdeps o v hv).2.1
    · rw [kind_eq_of_strip h, operands_eq_of_strip h, results_eq_of_strip h,
        regions_eq_of_strip h, valueType_eq_of_strip h, signature_eq_of_strip h]
      exact hshape
  · intro o ho v hv
    rw [hused, List.mem_append] at hv
    rcases hv with hv | hv
    · exact (hp.visible o (hsize ▸ ho) v (List.mem_append_left _ hv)).of_strip h
    · exact (hdeps o v hv).2.2.of_strip h

end

end AsyncOrder.Program
