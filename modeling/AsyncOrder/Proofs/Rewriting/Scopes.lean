import AsyncOrder.Proofs.Rewriting.Pruning

/-!
# The scopes of pruned programs

A walk of a pruned program meets what a walk of the program meets, as far as it lives:

    q.members blocks = (p.members blocks).filter q.isLive                     (Prunes.members_eq)

So the scopes of a pruned program are built in the same way, and they are the scopes of the calls
that live (`Prunes.exists_scope`).  What lives is a member of one of them, or a primitive
(`Prunes.covers`).
-/

namespace AsyncOrder.Program

open Relation

variable {p q : Program} {c : Context} {t : ScopeTree} {blocks : List BlockId}
variable {call : Option OpId} {ops ops' : List OpId} {o x z : OpId} {keep enters : OpId → Bool}

/-! ## Walks of what lives -/

theorem under_of_mem_walkFrom {depth : Nat} (hx : x ∈ p.walkFrom keep enters depth ops) :
    ∃ z ∈ ops, p.Under enters z x := by
  induction depth generalizing ops with
  | zero => exact absurd hx List.not_mem_nil
  | succ depth ih =>
    obtain ⟨z, hz, hx⟩ := List.mem_flatMap.1 hx
    split at hx
    · rcases List.mem_cons.1 hx with rfl | hx
      · exact ⟨x, hz, .refl⟩
      · split at hx
        · next henters =>
          obtain ⟨y, hy, hyx⟩ := ih hx
          exact ⟨z, hz, .head ⟨henters, hy⟩ hyx⟩
        · exact absurd hx List.not_mem_nil
    · exact absurd hx List.not_mem_nil

namespace Prunes

variable (h : p.Prunes q)
include h

theorem shares : q.shares = p.shares := by
  funext o
  rw [Program.shares, Program.shares, h.kind]

theorem holds : q.holds = p.holds := by
  funext o
  rw [Program.holds, Program.holds, h.shares, h.kind]

theorem isScope (hs : q.IsScope call blocks) : p.IsScope call blocks := by
  cases hs with
  | host => exact h.funcs ▸ .host
  | body hlt hkind =>
    rw [body?, h.regions, ← body?]
    exact .body (h.size_ops ▸ hlt) (h.kind _ ▸ hkind)

variable (hp : p.Linked)
include hp

theorem filter_ops (b : BlockId) :
    (q.block b).ops.filter q.isLive = (p.block b).ops.filter q.isLive := by
  refine filter_eq_filter_of_sublist (h.ops b) (hp.nodup_ops b) fun o ho hlive => ?_
  have hlisted := h.listed o hlive
  rwa [h.parent, hp.parent_of_mem_ops ho] at hlisted

theorem filter_blocksOps (blocks : List BlockId) :
    (q.blocksOps blocks).filter q.isLive = (p.blocksOps blocks).filter q.isLive := by
  rw [blocksOps, blocksOps, List.filter_flatMap, List.filter_flatMap]
  exact List.flatMap_congr fun b _ => h.filter_ops hp b

theorem filter_nested (o : OpId) :
    (q.nested o).filter q.isLive = (p.nested o).filter q.isLive := by
  have hblocks : ∀ p : Program, p.nested o = p.blocksOps (p.op o).regions := fun _ => rfl
  rw [hblocks, hblocks, h.regions]
  exact h.filter_blocksOps hp _

theorem not_isLive_of_under (hz : q.isLive z = false) (hx : p.Under enters z x) :
    q.isLive x = false :=
  Bool.eq_false_iff.2 fun hlive =>
    Bool.eq_false_iff.1 hz (h.live_path hp hlive (Under.weaken hx)).1

theorem walkFrom_eq (hops : ∀ o ∈ ops, o.index < p.ops.size)
    (heq : ops'.filter q.isLive = ops.filter q.isLive) (enters : OpId → Bool) (depth : Nat) :
    q.walkFrom q.isLive enters depth ops' =
      (p.walkFrom p.isLive enters depth ops).filter q.isLive := by
  induction depth generalizing ops ops' with
  | zero => rfl
  | succ depth ih =>
    rw [walkFrom, walkFrom, flatMap_ite, heq, ← flatMap_ite, List.filter_flatMap]
    refine List.flatMap_congr fun o ho => ?_
    rw [if_pos (hp.isLive (hops o ho))]
    split
    · next hlive =>
      rw [List.filter_cons_of_pos hlive]
      split
      · rw [ih (fun y hy => (hp.mem_nested_iff.1 hy).1) (h.filter_nested hp o)]
      · rfl
    · next hdead =>
      have hunder : ∀ x ∈ o :: (if enters o = true then
          p.walkFrom p.isLive enters depth (p.nested o) else []), p.Under enters o x := by
        intro x hx
        rcases List.mem_cons.1 hx with rfl | hx
        · exact .refl
        · split at hx
          · next henters =>
            obtain ⟨y, hy, hyx⟩ := under_of_mem_walkFrom hx
            exact .head ⟨henters, hy⟩ hyx
          · exact absurd hx List.not_mem_nil
      refine (List.filter_eq_nil_iff.2 fun x hx => ?_).symm
      rw [h.not_isLive_of_under hp (Bool.eq_false_iff.2 hdead) (hunder x hx)]
      exact Bool.false_ne_true

theorem tour_eq (hops : ∀ o ∈ ops, o.index < p.ops.size)
    (heq : ops'.filter q.isLive = ops.filter q.isLive) (enters : OpId → Bool) :
    q.tour enters ops' = (p.tour enters ops).filter q.isLive := by
  rw [tour, tour, walkDepth, walkDepth, h.size_ops]
  exact h.walkFrom_eq hp hops heq enters _

/-- The members of a scope are those that live. -/
theorem members_eq (blocks : List BlockId) :
    q.members blocks = (p.members blocks).filter q.isLive := by
  rw [members_eq_tour, members_eq_tour, h.shares]
  exact h.tour_eq hp (hp.blocksOps_lt blocks) (h.filter_blocksOps hp blocks) _

theorem mem_members : o ∈ q.members blocks ↔ o ∈ p.members blocks ∧ q.isLive o = true := by
  rw [h.members_eq hp, List.mem_filter]

theorem everything_eq (hops : ∀ o ∈ ops, o.index < p.ops.size)
    (heq : ops'.filter q.isLive = ops.filter q.isLive) :
    q.everything ops' = (p.everything ops).filter q.isLive := by
  rw [everything, everything, h.holds]
  exact h.tour_eq hp hops heq _

theorem everything_nested_eq (o : OpId) :
    q.everything (q.nested o) = (p.everything (p.nested o)).filter q.isLive :=
  h.everything_eq hp (fun _ hy => (hp.mem_nested_iff.1 hy).1) (h.filter_nested hp o)

theorem filter_covered (o : OpId) : (p.covered o).filter q.isLive =
    if q.isLive o = true then q.covered o else [] := by
  split
  · next hlive =>
    rw [covered, covered, List.filter_cons_of_pos hlive, h.kind]
    split
    · rw [h.everything_nested_eq hp]
    · rfl
  · next hdead =>
    refine List.filter_eq_nil_iff.2 fun x hx => ?_
    have hunder : p.Under (fun _ => true) o x := by
      rcases List.mem_cons.1 hx with rfl | hx
      · exact .refl
      · split at hx
        · obtain ⟨y, hy, hyx⟩ := under_of_mem_walkFrom hx
          exact .head ⟨rfl, hy⟩ (Under.weaken hyx)
        · exact absurd hx List.not_mem_nil
    rw [h.not_isLive_of_under hp (Bool.eq_false_iff.2 hdead) hunder]
    exact Bool.false_ne_true

omit hp

theorem nests (hp : p.WellFormed) : q.Nests where
  body o ho hkind := by
    obtain ⟨b, hb, -, -⟩ := hp.body_hierarchy (h.size_ops ▸ ho) (h.kind o ▸ hkind)
    rw [nested, body?, h.regions, hb]
    rfl
  lt blocks o ho := h.size_ops ▸ lt_of_mem_members hp.linked ((h.mem_members hp.linked).1 ho).1
  inner_lt z x hx := by
    rw [h.everything_nested_eq hp.linked] at hx
    exact hp.linked.lt_of_mem_everything (List.mem_of_mem_filter hx)
  covers blocks := by
    rw [h.everything_eq hp.linked (hp.linked.blocksOps_lt blocks)
      (h.filter_blocksOps hp.linked blocks), hp.nests.covers, List.filter_flatMap,
      h.members_eq hp.linked, ← flatMap_ite]
    exact List.flatMap_congr fun o _ => h.filter_covered hp.linked o
  nodup call blocks hs := by
    rw [h.everything_eq hp.linked (hp.linked.blocksOps_lt blocks)
      (h.filter_blocksOps hp.linked blocks)]
    exact (hp.nests.nodup call blocks (h.isScope hs)).filter _

end Prunes

/-! ## Trees of what lives -/

/-- In a program that builds, no compute holds anything but primitives. -/
theorem foreign?_eq_none_of_laid (hp : p.WellFormed)
    (ht : Laid p c [] none (p.funcs.map (·.body)) t) (o : OpId) : p.foreign? o = none := by
  by_cases ho : o.index < p.ops.size
  · rcases ht.covers hp ho with ⟨path, call, blocks, t', -, -, hlaid, hmem⟩ | hprim
    · obtain ⟨-, native, -, -⟩ := hlaid
      exact native o hmem
    · rw [foreign?, if_neg]
      intro hkind
      rw [hkind] at hprim
      cases hprim
  · rw [foreign?, if_neg]
    rw [kind, op_of_size_le (Nat.le_of_not_lt ho)]
    exact OpKind.noConfusion

namespace Prunes

variable (h : p.Prunes q) (hp : p.WellFormed)
include h

theorem foreign?_eq_none (ho : p.foreign? o = none) : q.foreign? o = none := by
  have hbody : ∀ p : Program, p.computeBody o =
      ((p.op o).regions.head?.map fun b => (p.block b).ops).getD [] := fun _ => rfl
  rw [foreign?, hbody, h.kind, h.regions]
  rw [foreign?, hbody] at ho
  split
  · next hkind =>
    rw [if_pos hkind] at ho
    cases hregion : (p.op o).regions.head? with
    | none => rfl
    | some b =>
      rw [hregion] at ho
      rw [List.find?_eq_none]
      intro x hx
      rw [h.kind]
      exact List.find?_eq_none.1 ho x ((h.ops b).subset hx)
  · rfl

include hp

/-- Where the scopes of a program are built, those of the pruned program are. -/
theorem exists_scopeTree (ht : Laid p c [] none (p.funcs.map (·.body)) t) :
    ∃ t' c', q.scopeTree = .ok (t', c') ∧ Laid q c' [] none (q.funcs.map (·.body)) t' := by
  cases hbuild : q.scopeTree with
  | error f =>
    obtain ⟨o, bad, hforeign, -⟩ := foreign_of_buildScope _ hbuild
    rw [h.foreign?_eq_none (foreign?_eq_none_of_laid hp ht o)] at hforeign
    cases hforeign
  | ok r => exact ⟨r.1, r.2, rfl, (h.nests hp).laid hbuild⟩

/-- What is in a scope lies in its call. -/
theorem isLive_call (hs : p.IsScope call blocks) (ho : o ∈ p.members blocks)
    (hlive : q.isLive o = true) : ∀ z, call = some z → q.isLive z = true ∧ o.index < z.index := by
  rintro z rfl
  obtain ⟨a, ha, hao⟩ := (mem_tour hp.linked (hp.linked.blocksOps_lt blocks)).1 ho
  obtain ⟨halive, -⟩ := h.live_path hp.linked hlive (Under.weaken hao)
  have hparent := hs.parentOp? hp a ha
  have hnested := hp.linked.mem_nested_iff.2 ⟨hp.linked.blocksOps_lt blocks a ha, hparent⟩
  have := hp.linked.nested_lt hnested
  have := hao.index_le hp.linked
  exact ⟨h.around a z halive ((h.parentOp? a).trans hparent), by omega⟩

section

variable (ht : Laid q c [] none (q.funcs.map (·.body)) t)
include ht

/-- What lives is a member of a scope of the tree, or a primitive. -/
theorem covers (ho : q.isLive o = true) :
    (∃ path call blocks u, t.at? path = some u ∧ p.IsScope call blocks ∧
      Laid q c path call blocks u ∧ o ∈ p.members blocks) ∨
    (p.kind o).isComputePrimitive = true := by
  have hlt := h.lt ho
  obtain ⟨n, hn⟩ : ∃ n, p.ops.size - o.index ≤ n := ⟨_, Nat.le_refl _⟩
  -- outwards, since what an operation lies in has the greater number
  induction n generalizing o with
  | zero => omega
  | succ n ih =>
    cases hparent : p.parentOp? o with
    | none =>
      have hbody : (p.op o).parent ∈ p.funcs.map (·.body) :=
        (hp.mem_bodies _).2 ⟨hp.linked.parent_lt hlt, hparent⟩
      exact Or.inl ⟨[], none, _, t, rfl, .host, h.funcs ▸ ht, mem_tour_self hp.linked
        (hp.linked.blocksOps_lt _) (List.mem_flatMap.2 ⟨_, hbody, hp.linked.mem_ops_parent hlt⟩)⟩
    | some z =>
      have hnested : o ∈ p.nested z := hp.linked.mem_nested_iff.2 ⟨hlt, hparent⟩
      have hzlt : z.index < p.ops.size := hp.linked.owner_lt hparent
      have hless := hp.linked.nested_lt hnested
      have hz := h.around o z ho ((h.parentOp? o).trans hparent)
      rcases ih hz hzlt (by omega) with ⟨path, call, blocks, u, hat, hs, hlaid, hmem⟩ | hprim
      · have hzmem : z ∈ q.members blocks := (h.mem_members hp.linked).2 ⟨hmem, hz⟩
        rcases cases_of_mem_nested hp hnested with hshares | hcall | hcompute
        · exact Or.inl ⟨path, call, blocks, u, hat, hs, hlaid, mem_tour_of_under hp.linked
            (hp.linked.blocksOps_lt _) hmem (.single ⟨hshares, hnested⟩)⟩
        · obtain ⟨i, child, hchild, hlaid⟩ := hlaid.exists_child hzmem (h.kind z ▸ hcall)
          have hbody : q.body? z = p.body? z := congrArg List.head? (h.regions z)
          rw [hp.nested_hierarchy hzlt hcall] at hnested
          exact Or.inl ⟨path ++ [i], some z, _, child, Tree.at?_trans hat hchild,
            .body hzlt hcall, hbody ▸ hlaid, mem_tour_self hp.linked (hp.linked.blocksOps_lt _)
              hnested⟩
        · obtain ⟨b, hregions, -⟩ := hp.regions_eq_singleton hzlt (by rw [hcompute]; rfl)
          have hbody := computeBody_eq_of_regions ((h.regions z).trans hregions)
          refine Or.inr (h.kind o ▸ hlaid.isComputePrimitive hzmem
            ((h.kind z).trans hcompute) ?_)
          rw [hbody]
          exact h.mem_nested hp.linked ho hparent
      · obtain ⟨b, hb, -⟩ := List.mem_flatMap.1 hnested
        rw [regions_eq_nil_of_primitive hp hzlt hprim] at hb
        exact absurd hb List.not_mem_nil

/-- The tree has the scope of every call that lives. -/
theorem exists_scope (hs : p.IsScope call blocks)
    (hcall : ∀ z, call = some z → q.isLive z = true) :
    ∃ path u, t.at? path = some u ∧ Laid q c path call blocks u := by
  cases hs with
  | host => exact ⟨[], t, rfl, h.funcs ▸ ht⟩
  | @body z hlt hkind =>
    have hlive := hcall z rfl
    rcases h.covers hp ht hlive with ⟨path, above, blocks, u, hat, -, hlaid, hmem⟩ | hprim
    · obtain ⟨i, child, hchild, hlaid⟩ := hlaid.exists_child
        ((h.mem_members hp.linked).2 ⟨hmem, hlive⟩) (h.kind z ▸ hkind)
      have hbody : q.body? z = p.body? z := congrArg List.head? (h.regions z)
      exact ⟨path ++ [i], child, Tree.at?_trans hat hchild, hbody ▸ hlaid⟩
    · cases hk : p.kind z <;> simp_all [OpKind.isHierarchy, OpKind.isComputePrimitive]

/-- What lives is drawn, unless it is a primitive. -/
theorem exists_drawn (ho : q.isLive o = true) (hkind : (p.kind o).isComputePrimitive = false) :
    ∃ path s call blocks, t.get? path = some s ∧ p.IsScope call blocks ∧
      o ∈ p.members blocks ∧ Drawn q c path (q.scopeKind call) call (q.members blocks) s := by
  rcases h.covers hp ht ho with ⟨path, call, blocks, u, hat, hs, ⟨drawn, -⟩, hmem⟩ | hprim
  · exact ⟨path, _, call, blocks, Tree.get?_of_at? hat, hs, hmem, drawn⟩
  · rw [hkind] at hprim
    cases hprim

end

end Prunes

end AsyncOrder.Program
