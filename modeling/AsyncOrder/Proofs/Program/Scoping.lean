import AsyncOrder.Proofs.Basic
import AsyncOrder.Proofs.Program.Layout

/-!
# Visible values

An operation sees the arguments of the blocks around it and the results of what stands before it
or before an operation around it, up to the innermost hierarchy call.  While a program is under
construction a block may have no owner yet; what its operations see beyond it is left open:

    p.Sees beyond o v    beyond b v says that v is seen in b from outside
    p.Visible o v        nothing is seen beyond a block without owner
-/

namespace AsyncOrder.Program

/-- The values that the operations of a block have in common. -/
def locals (p : Program) (b : BlockId) : List ValueId :=
  (p.block b).args ++ (p.block b).ops.flatMap fun o => (p.op o).results

inductive Sees (p : Program) (beyond : BlockId → ValueId → Prop) : OpId → ValueId → Prop
  | arg {o v} : v ∈ (p.block (p.op o).parent).args → Sees p beyond o v
  | result {o z v} : p.isBefore z o = true → v ∈ (p.op z).results → Sees p beyond o v
  | outer {o z v} : p.parentOp? o = some z → (p.kind z).isHierarchy = false →
      Sees p beyond z v → Sees p beyond o v
  | beyond {o v} : beyond (p.op o).parent v → Sees p beyond o v

def Visible (p : Program) (o : OpId) (v : ValueId) : Prop := p.Sees (fun _ _ => False) o v

variable {p : Program} {o z : OpId} {b : BlockId} {v : ValueId}

/-- A block has each of its values once. -/
theorem Linked.nodup_locals (hp : p.Linked) (b : BlockId) : (p.locals b).Nodup := by
  refine List.nodup_append.2 ⟨hp.nodup_args b, List.nodup_flatMap.2 ⟨fun o _ => hp.nodup_results o,
    (hp.nodup_ops b).imp fun {o z} hne v ho hz => ?_⟩, fun v harg w hresult heq => ?_⟩
  · obtain ⟨i, hi⟩ := hp.exists_origin_of_result ho
    obtain ⟨j, hj⟩ := hp.exists_origin_of_result hz
    exact hne (Origin.result.inj (hi.symm.trans hj)).1
  · subst heq
    obtain ⟨o, -, hresult⟩ := List.mem_flatMap.1 hresult
    obtain ⟨i, hi⟩ := hp.exists_origin_of_arg harg
    obtain ⟨j, hj⟩ := hp.exists_origin_of_result hresult
    exact Origin.noConfusion (hi.symm.trans hj)

/-! ## Order in a block -/

/-- In a block whose numbers ascend operations stand in the order of their numbers. -/
theorem isBefore_iff_of_sorted
    (hsorted : (p.block (p.op o).parent).ops.Pairwise fun x y => x.index < y.index)
    (hz : z ∈ (p.block (p.op z).parent).ops) (ho : o ∈ (p.block (p.op o).parent).ops) :
    p.isBefore z o = true ↔ (p.op z).parent = (p.op o).parent ∧ z.index < o.index := by
  rw [isBefore, Bool.and_eq_true, decide_eq_true_eq]
  refine and_congr_right fun hpar => ?_
  obtain ⟨i, hi⟩ := Option.isSome_iff_exists.1 (List.isSome_idxOf?.2 hz)
  obtain ⟨j, hj⟩ := Option.isSome_iff_exists.1 (List.isSome_idxOf?.2 ho)
  obtain ⟨hil, hiz, -⟩ := List.idxOf?_eq_some_iff.1 hi
  obtain ⟨hjl, hjo, -⟩ := List.idxOf?_eq_some_iff.1 hj
  have hplace := List.getElem?_eq_some_iff.2 ⟨hil, hiz⟩
  rw [hpar] at hplace
  simp only [position?, hi, hj, decide_eq_true_eq]
  exact place_lt_iff hsorted hplace (List.getElem?_eq_some_iff.2 ⟨hjl, hjo⟩)

theorem Linked.isBefore_iff (hp : p.Linked) (hz : z.index < p.ops.size)
    (ho : o.index < p.ops.size) :
    p.isBefore z o = true ↔ (p.op z).parent = (p.op o).parent ∧ z.index < o.index :=
  isBefore_iff_of_sorted (hp.sorted _) (hp.mem_ops_parent hz) (hp.mem_ops_parent ho)

theorem Linked.lt_of_isBefore (hp : p.Linked) (h : p.isBefore z o = true) :
    z.index < p.ops.size ∧ o.index < p.ops.size := by
  rw [isBefore, Bool.and_eq_true] at h
  have hmem : z ∈ (p.block (p.op z).parent).ops ∧ o ∈ (p.block (p.op o).parent).ops := by
    have h₂ := h.2
    rw [position?, position?] at h₂
    split at h₂
    · next i j hi hj =>
      exact ⟨List.isSome_idxOf?.1 (by rw [hi]; rfl), List.isSome_idxOf?.1 (by rw [hj]; rfl)⟩
    · simp at h₂
  exact ⟨hp.size_of_mem_ops hmem.1, hp.size_of_mem_ops hmem.2⟩

/-! ## Growth -/

theorem Sees.mono {beyond beyond' : BlockId → ValueId → Prop}
    (h : ∀ b v, beyond b v → beyond' b v) (hs : p.Sees beyond o v) : p.Sees beyond' o v := by
  induction hs with
  | arg hv => exact .arg hv
  | result hz hv => exact .result hz hv
  | outer hz hk _ ih => exact .outer hz hk ih
  | beyond hv => exact .beyond (h _ _ hv)

/-- Seeing survives growth, if what was seen from outside still is. -/
theorem Sees.grow {q : Program} (hp : p.Linked) (hq : q.Linked) (h : p.Grows q)
    {beyond beyond' : BlockId → ValueId → Prop}
    (hbeyond : ∀ o, o.index < p.ops.size → ∀ v, beyond (p.op o).parent v → q.Sees beyond' o v)
    (ho : o.index < p.ops.size) (hs : p.Sees beyond o v) : q.Sees beyond' o v := by
  induction hs with
  | @arg o v hv =>
    refine .arg ?_
    rw [h.op o ho, h.args _ (hp.parent_lt ho)]
    exact hv
  | @result o z v hz hv =>
    obtain ⟨hzlt, -⟩ := hp.lt_of_isBefore hz
    refine .result (z := z) ?_ (by rwa [h.op z hzlt])
    have hle := h.size_ops
    rw [hq.isBefore_iff (by omega) (by omega), h.op z hzlt, h.op o ho]
    exact (hp.isBefore_iff hzlt ho).1 hz
  | @outer o z v hz hk _ ih =>
    have hzlt := hp.owner_lt hz
    refine .outer (z := z) ?_ (by rwa [h.kind_eq hzlt]) (ih hzlt)
    rw [parentOp?, h.op o ho, h.owned _ _ hz]
    exact hz
  | @beyond o v hv => exact hbeyond o ho v hv

end AsyncOrder.Program
