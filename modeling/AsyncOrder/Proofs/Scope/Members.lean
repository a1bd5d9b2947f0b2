import AsyncOrder.Proofs.Lowering.WellFormed
import AsyncOrder.Scope.Build

/-!
# Members of a scope

The members of a scope are met by a walk that enters loops and conditionals.  A walk that enters
hierarchy calls too meets the members of a scope and, behind each call, all that lies in it:

    everything ops = (members of ops).flatMap fun o => o :: everything in o, if it is a call
-/

namespace AsyncOrder.Program

open Relation

variable {p : Program} {ops : List OpId} {blocks : List BlockId} {call : Option OpId}
variable {o x y z : OpId}

/-- Loops and conditionals share the scope they stand in. -/
def shares (p : Program) (o : OpId) : Bool := (p.kind o).isLoop || p.kind o = .branch

/-- Operations that hold more operations of the walk of all scopes. -/
def holds (p : Program) (o : OpId) : Bool := p.shares o || (p.kind o).isHierarchy

theorem members_eq_tour : p.members blocks = p.tour p.shares (p.blocksOps blocks) := rfl

/-- The operations of a scope and of those below it. -/
def everything (p : Program) (ops : List OpId) : List OpId := p.tour p.holds ops

theorem Linked.lt_of_mem_everything (hp : p.Linked) (hx : x ∈ p.everything (p.nested z)) :
    x.index < z.index := by
  obtain ⟨y, hy, hyx⟩ := (mem_tour hp fun y hy => (hp.mem_nested_iff.1 hy).1).1 hx
  exact Nat.lt_of_le_of_lt (hyx.index_le hp) (hp.nested_lt hy)

theorem not_isHierarchy_of_shares (h : p.shares o = true) : (p.kind o).isHierarchy = false := by
  rw [shares, Bool.or_eq_true, decide_eq_true_eq] at h
  rcases h with h | h
  · cases hk : p.kind o <;> simp_all [OpKind.isLoop, OpKind.isHierarchy]
  · rw [h]
    rfl

theorem everything_eq (hp : p.Linked) (hops : ∀ o ∈ ops, o.index < p.ops.size) :
    p.everything ops = (p.tour p.shares ops).flatMap fun o =>
      o :: if (p.kind o).isHierarchy then p.everything (p.nested o) else [] := by
  have key : ∀ n, ∀ ops, (∀ o ∈ ops, o.index < p.ops.size) → (∀ o ∈ ops, o.index < n) →
      p.everything ops = (p.tour p.shares ops).flatMap fun o =>
        o :: if (p.kind o).isHierarchy then p.everything (p.nested o) else [] := by
    intro n
    induction n with
    | zero =>
      intro ops _ hlt
      have hnil : ops = [] := List.eq_nil_iff_forall_not_mem.2 fun o ho =>
        Nat.not_lt_zero _ (hlt o ho)
      subst hnil
      rfl
    | succ n ih =>
      intro ops hops hlt
      rw [everything, tour_eq_flatMap, tour_eq_flatMap (p := p) ops, List.flatMap_assoc]
      refine List.flatMap_congr fun z hz => ?_
      have hzlt := hops z hz
      have hnested := ih (p.nested z) (fun y hy => Nat.lt_trans (hp.nested_lt hy) hzlt)
        fun y hy => by
          have := hp.nested_lt hy
          have := hlt z hz
          omega
      rw [tour_singleton hp hzlt, tour_singleton hp hzlt, List.flatMap_cons]
      by_cases hshares : p.shares z = true
      · rw [not_isHierarchy_of_shares hshares, holds, hshares]
        simpa [everything] using hnested
      · by_cases hcall : (p.kind z).isHierarchy = true
        · simp [holds, hshares, hcall, everything]
        · simp [holds, hshares, hcall]
  exact key p.ops.size ops hops hops

/-! ## Scopes -/

/-- The blocks of a scope: the bodies of all functions, or the body of a hierarchy call. -/
inductive IsScope (p : Program) : Option OpId → List BlockId → Prop
  | host : IsScope p none (p.funcs.map (·.body))
  | body {h : OpId} : h.index < p.ops.size → (p.kind h).isHierarchy = true →
      IsScope p (some h) (p.body? h).toList

variable (hp : p.WellFormed)
include hp

theorem WellFormed.body_hierarchy (ho : o.index < p.ops.size)
    (hkind : (p.kind o).isHierarchy = true) :
    ∃ b, (p.op o).regions = [b] ∧ p.body? o = some b ∧ Lowering.Complete p .hierarchy b := by
  refine hp.regions_eq_singleton ho ?_
  cases hk : p.kind o <;> simp_all [Lowering.bodyRegions, OpKind.isHierarchy]

theorem WellFormed.nested_hierarchy (ho : o.index < p.ops.size)
    (hkind : (p.kind o).isHierarchy = true) : p.nested o = p.blocksOps (p.body? o).toList := by
  obtain ⟨b, hb, hbody, -⟩ := hp.body_hierarchy ho hkind
  rw [nested, hb, hbody]
  rfl

/-- The operations directly in a scope lie in nothing but the call. -/
theorem IsScope.parentOp? (h : p.IsScope call blocks) :
    ∀ o ∈ p.blocksOps blocks, p.parentOp? o = call := by
  intro o ho
  cases h with
  | host =>
    obtain ⟨b, hb, ho⟩ := List.mem_flatMap.1 ho
    rw [Program.parentOp?, hp.linked.parent_of_mem_ops ho]
    exact ((hp.mem_bodies b).1 hb).2
  | @body h hlt hkind =>
    rw [← hp.nested_hierarchy hlt hkind] at ho
    exact (hp.linked.mem_nested_iff.1 ho).2

theorem IsScope.siblings (h : p.IsScope call blocks) : p.Siblings (p.blocksOps blocks) where
  lt := hp.linked.blocksOps_lt blocks
  nodup := by
    have hblocks : blocks.Nodup := by
      cases h with
      | host => exact hp.nodup_bodies
      | body hlt hkind =>
        obtain ⟨b, -, hbody, -⟩ := hp.body_hierarchy hlt hkind
        rw [hbody]
        exact List.nodup_singleton b
    refine List.nodup_flatMap.2 ⟨fun b _ => hp.linked.nodup_ops b, hblocks.imp ?_⟩
    intro b c hbc y hyb hyc
    exact hbc ((hp.linked.parent_of_mem_ops hyb).symm.trans (hp.linked.parent_of_mem_ops hyc))
  parent o ho z hz := (h.parentOp? hp o ho).trans (h.parentOp? hp z hz).symm

theorem IsScope.nodup_members (h : p.IsScope call blocks) : (p.members blocks).Nodup :=
  nodup_tour hp.linked (h.siblings hp)

theorem IsScope.nodup_everything (h : p.IsScope call blocks) :
    (p.everything (p.blocksOps blocks)).Nodup :=
  nodup_tour hp.linked (h.siblings hp)

omit hp in
theorem lt_of_mem_members (hp : p.Linked) (ho : o ∈ p.members blocks) : o.index < p.ops.size :=
  lt_of_mem_tour hp (hp.blocksOps_lt blocks) ho

/-- What is around a member shares the scope, or is the call. -/
theorem IsScope.parent_cases (h : p.IsScope call blocks) (ho : o ∈ p.members blocks) :
    (o ∈ p.blocksOps blocks ∧ p.parentOp? o = call) ∨
      ∃ z ∈ p.members blocks, p.shares z = true ∧ o ∈ p.nested z ∧ p.parentOp? o = some z := by
  have hlt := hp.linked.blocksOps_lt blocks
  obtain ⟨a, ha, hao⟩ := (mem_tour hp.linked hlt).1 ho
  rcases ReflTransGen.cases_tail hao with rfl | ⟨z, haz, hshares, hoz⟩
  · exact Or.inl ⟨ha, h.parentOp? hp _ ha⟩
  · refine Or.inr ⟨z, (mem_tour hp.linked hlt).2 ⟨a, ha, haz⟩, hshares, hoz, ?_⟩
    exact (hp.linked.mem_nested_iff.1 hoz).2

/-- Through what is no hierarchy call one comes from member to member. -/
theorem IsScope.parent_mem (h : p.IsScope call blocks) (ho : o ∈ p.members blocks)
    (hz : p.parentOp? o = some z) (hkind : (p.kind z).isHierarchy = false) :
    z ∈ p.members blocks ∧ p.shares z = true ∧ o ∈ p.nested z := by
  rcases h.parent_cases hp ho with ⟨-, hcall⟩ | ⟨z', hz', hshares, hoz, hparent⟩
  · cases h with
    | host => rw [hz] at hcall; simp at hcall
    | body hlt hk =>
      obtain rfl := Option.some.inj (hz.symm.trans hcall)
      rw [hk] at hkind
      exact absurd hkind (by simp)
  · obtain rfl := Option.some.inj (hz.symm.trans hparent)
    exact ⟨hz', hshares, hoz⟩

/-- The end of a hierarchy body is the last member of its scope. -/
theorem IsScope.finish_last (h : p.IsScope call blocks) (ho : o ∈ p.members blocks)
    (hkind : p.kind o = .finish) : ∃ pre, p.members blocks = pre ++ [o] := by
  have holt := lt_of_mem_members hp.linked ho
  obtain ⟨z, hz, hcall⟩ := hp.owner_finish holt hkind
  rcases h.parent_cases hp ho with ⟨hdirect, hparent⟩ | ⟨z', -, hshares, -, hparent⟩
  · cases h with
    | host =>
      rw [hz] at hparent
      simp at hparent
    | @body h hlt hk =>
      obtain ⟨b, -, hbody, -⟩ := hp.body_hierarchy hlt hk
      rw [hbody] at hdirect ⊢
      have hops : p.blocksOps (some b).toList = (p.block b).ops := List.flatMap_singleton _ _
      rw [hops] at hdirect
      have hlast := hp.terminator?_parent holt (by rw [hkind]; rfl)
      rw [hp.linked.parent_of_mem_ops hdirect] at hlast
      obtain ⟨init, hinit⟩ := List.getLast?_eq_some_iff.1 (Option.eq_some_of_filter_eq_some hlast)
      have htour : p.tour p.shares [o] = [o] := by
        rw [tour_singleton hp.linked holt, shares, hkind]
        rfl
      exact ⟨p.tour p.shares init, by rw [members_eq_tour, hops, hinit, tour_append, htour]⟩
  · obtain rfl := Option.some.inj (hz.symm.trans hparent)
    rw [not_isHierarchy_of_shares hshares] at hcall
    cases hcall

/-- A hierarchy body has an end among its members. -/
theorem IsScope.exists_finish (h : p.IsScope (some z) blocks) :
    ∃ o ∈ p.nested z, o ∈ p.members blocks ∧ p.kind o = .finish := by
  cases h with
  | body hlt hkind =>
    obtain ⟨b, -, hbody, horderly, hended⟩ := hp.body_hierarchy hlt hkind
    obtain ⟨o, ho⟩ := Option.isSome_iff_exists.1 hended
    obtain ⟨hlast, hterm⟩ := Option.filter_eq_some_iff.1 ho
    have hmem : o ∈ (p.block b).ops := List.mem_of_getLast? hlast
    have hblocks : p.blocksOps (p.body? z).toList = (p.block b).ops := by
      rw [hbody]
      exact List.flatMap_singleton _ _
    refine ⟨o, ?_, ?_, ?_⟩
    · rw [hp.nested_hierarchy hlt hkind, hblocks]
      exact hmem
    · rw [members_eq_tour]
      exact mem_tour_self hp.linked (hp.linked.blocksOps_lt _) (hblocks ▸ hmem)
    · have hstands := horderly.stands o hmem
      cases hk : p.kind o <;> simp_all [Lowering.Stands, OpKind.isTerminator]

/-! ## Order among members -/

omit hp in
theorem idxOf_lt_of_nested (hp : p.WellFormed) (h : p.IsScope call blocks)
    (hz : z ∈ p.members blocks) (hshares : p.shares z = true) (hy : y ∈ p.nested z)
    (hx : p.Under p.shares y x) :
    x ∈ p.members blocks ∧ (p.members blocks).idxOf z < (p.members blocks).idxOf x := by
  have hlt := hp.linked.blocksOps_lt blocks
  refine ⟨?_, idxOf_lt_idxOf (h.nodup_members hp)
    (pair_sublist_of_nested hp.linked hlt hz hshares hy hx)⟩
  exact mem_tour_of_under hp.linked hlt hz (.head ⟨hshares, hy⟩ hx)

/-- What stands before a member is a member with all that lies in it, and comes before it. -/
theorem IsScope.before_mem (h : p.IsScope call blocks) (ho : o ∈ p.members blocks)
    (hz : p.isBefore z o = true) (hx : p.Under p.shares z x) :
    x ∈ p.members blocks ∧ (p.members blocks).idxOf x < (p.members blocks).idxOf o := by
  obtain ⟨hzlt, holt⟩ := hp.linked.lt_of_isBefore hz
  obtain ⟨hparent, hindex⟩ := (hp.linked.isBefore_iff hzlt holt).1 hz
  have hpair := pair_sublist_of_before hp.linked ho hzlt hparent hindex hx (.refl (a := o))
  exact ⟨hpair.subset List.mem_cons_self, idxOf_lt_idxOf (h.nodup_members hp) hpair⟩

end AsyncOrder.Program
