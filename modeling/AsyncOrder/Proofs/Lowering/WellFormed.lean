import AsyncOrder.Proofs.Lowering.Reading
import AsyncOrder.Proofs.Program.Walks

/-!
# Well-formed programs

What an accepted text spells, once no site is open any more.
-/

namespace AsyncOrder

open Lowering

structure Program.WellFormed (p : Program) : Prop where
  linked : p.Linked
  nodup_bodies : (p.funcs.map (·.body)).Nodup
  /-- The bodies of functions are the blocks without owner. -/
  mem_bodies : ∀ b, b ∈ p.funcs.map (·.body) ↔
    b.index < p.blocks.size ∧ (p.block b).parentOp = none
  orderly : ∀ f ∈ p.funcs, Orderly p .func f.body
  complete : ∀ o, o.index < p.ops.size →
    List.Forall₂ (Complete p) (bodyRegions (p.kind o)) (p.op o).regions
  used : ∀ o, o.index < p.ops.size → ∀ v ∈ p.used o, v.index < p.values.size
  laidOut : ∀ o, o.index < p.ops.size → p.LaidOut o
  visible : ∀ o, o.index < p.ops.size → ∀ v ∈ p.used o, p.Visible o v

theorem Lowering.Sound.wellFormed {p : Program} (h : Sound ⟨p, []⟩) : p.WellFormed := by
  have hroots : (⟨p, []⟩ : Construction).roots.map (·.2) = p.funcs.map (·.body) := by
    simp [Construction.roots, Function.comp_def]
  refine ⟨h.linked, hroots ▸ h.nodup_roots, fun b => hroots ▸ h.mem_roots b, fun f hf => ?_,
    h.complete, h.used, h.laidOut, fun o ho v hv => (h.sees o ho v hv).mono fun _ _ hb => hb⟩
  exact h.orderly (.func, f.body) (List.mem_map.2 ⟨f, hf, rfl⟩)

theorem wellFormed_of_readProgram {source : String} {p : Program}
    (h : readProgram source = .ok p) : p.WellFormed := (sound_of_readProgram h).wellFormed

namespace Program.WellFormed

variable {p : Program} (hp : p.WellFormed) {o z y : OpId} {b : BlockId}
include hp

/-! ## Regions -/

theorem regions_eq_singleton {r : Region} (ho : o.index < p.ops.size)
    (hkind : bodyRegions (p.kind o) = [r]) :
    ∃ b, (p.op o).regions = [b] ∧ p.body? o = some b ∧ Complete p r b := by
  have hall := hp.complete o ho
  rw [hkind] at hall
  cases hregions : (p.op o).regions with
  | nil =>
    rw [hregions] at hall
    cases hall
  | cons b bs =>
    rw [hregions] at hall
    cases hall with
    | cons hb hrest =>
      cases hrest
      exact ⟨b, rfl, by rw [body?, hregions]; rfl, hb⟩

theorem complete_of_mem (ho : o.index < p.ops.size) (hb : b ∈ (p.op o).regions) :
    ∃ r ∈ bodyRegions (p.kind o), Complete p r b := by
  obtain ⟨i, hi⟩ := List.mem_iff_getElem?.1 hb
  have hall := hp.complete o ho
  obtain ⟨hlt, rfl⟩ := List.getElem?_eq_some_iff.1 hi
  have hlt' : i < (bodyRegions (p.kind o)).length := by rw [hall.length_eq]; exact hlt
  exact ⟨_, List.getElem_mem hlt', hall.get hlt' hlt⟩

/-- Every block of the arena is orderly, for the operation it is a region of. -/
theorem orderly_block (hb : b.index < p.blocks.size) :
    ∃ r, Orderly p r b ∧ ((p.block b).parentOp = none ∧ r = .func ∨
      ∃ z, (p.block b).parentOp = some z ∧ r ∈ bodyRegions (p.kind z)) := by
  cases howner : (p.block b).parentOp with
  | none =>
    obtain ⟨f, hf, rfl⟩ := List.mem_map.1 ((hp.mem_bodies b).2 ⟨hb, howner⟩)
    exact ⟨.func, hp.orderly f hf, Or.inl ⟨rfl, rfl⟩⟩
  | some z =>
    obtain ⟨r, hr, hc⟩ := hp.complete_of_mem (hp.linked.owner_lt howner)
      ((hp.linked.mem_regions z b).2 howner)
    exact ⟨r, hc.1, Or.inr ⟨z, rfl, hr⟩⟩

/-- A terminator ends its block. -/
theorem terminator?_parent (ho : o.index < p.ops.size) (hkind : (p.kind o).isTerminator = true) :
    p.terminator? (p.op o).parent = some o := by
  obtain ⟨r, horderly, -⟩ := hp.orderly_block (hp.linked.parent_lt ho)
  exact horderly.last o (hp.linked.mem_ops_parent ho) hkind

/-- The operation around the end of a hierarchy body is the call. -/
theorem owner_finish (ho : o.index < p.ops.size) (hkind : p.kind o = .finish) :
    ∃ z, p.parentOp? o = some z ∧ (p.kind z).isHierarchy = true := by
  obtain ⟨r, horderly, howner⟩ := hp.orderly_block (hp.linked.parent_lt ho)
  have hstands := horderly.stands o (hp.linked.mem_ops_parent ho)
  rw [hkind] at hstands
  obtain rfl : r = .hierarchy := hstands
  rcases howner with ⟨-, h⟩ | ⟨z, hz, hr⟩
  · exact Region.noConfusion h
  · refine ⟨z, hz, ?_⟩
    cases hk : p.kind z <;> simp_all [bodyRegions, OpKind.isHierarchy]

omit hp in
theorem mem_ops_of_terminator? (h : p.terminator? b = some y) :
    y ∈ (p.block b).ops ∧ (p.kind y).isTerminator = true :=
  ⟨List.mem_of_getLast? (Option.eq_some_of_filter_eq_some h), Option.filter_eq_some_iff.1 h |>.2⟩

/-- A loop has a yield that ends its body. -/
theorem loopYield?_eq_some (ho : o.index < p.ops.size) (hkind : (p.kind o).isLoop = true) :
    ∃ y, p.loopYield? o = some y ∧ y ∈ p.nested o ∧ p.kind y = .yield := by
  have hregions : bodyRegions (p.kind o) = [.loop] := by
    cases hk : p.kind o <;> simp_all [bodyRegions, OpKind.isLoop]
  obtain ⟨b, hb, hbody, horderly, hsome⟩ := hp.regions_eq_singleton ho hregions
  obtain ⟨y, hy⟩ := Option.isSome_iff_exists.1 hsome
  obtain ⟨hmem, hterm⟩ := mem_ops_of_terminator? hy
  refine ⟨y, ?_, ?_, ?_⟩
  · rw [loopYield?, hbody, Option.bind_some, hy]
  · rw [nested, hb, List.flatMap_singleton]
    exact hmem
  · have hstands := horderly.stands y hmem
    cases hk : p.kind y <;> simp_all [OpKind.isTerminator, Stands]

/-! ## Walks -/

/-- A walk meets every operation. -/
theorem mem_walk : o ∈ p.walk ↔ o.index < p.ops.size := by
  have hlt := hp.linked.blocksOps_lt (p.funcs.map (·.body))
  rw [walk_eq_tour]
  refine ⟨lt_of_mem_tour hp.linked hlt, fun ho => ?_⟩
  obtain ⟨n, hn⟩ : ∃ n, p.ops.size - o.index ≤ n := ⟨_, Nat.le_refl _⟩
  -- outwards, since what an operation lies in has the greater number
  induction n generalizing o with
  | zero => omega
  | succ n ih =>
    cases hparent : p.parentOp? o with
    | none =>
      have hbody : (p.op o).parent ∈ p.funcs.map (·.body) :=
        (hp.mem_bodies _).2 ⟨hp.linked.parent_lt ho, hparent⟩
      exact mem_tour_self hp.linked hlt
        (List.mem_flatMap.2 ⟨_, hbody, hp.linked.mem_ops_parent ho⟩)
    | some z =>
      have hnested : o ∈ p.nested z := hp.linked.mem_nested_iff.2 ⟨ho, hparent⟩
      have hless := hp.linked.nested_lt hnested
      exact mem_tour_of_under hp.linked hlt (ih (hp.linked.owner_lt hparent) (by omega))
        (.single ⟨rfl, hnested⟩)

theorem nodup_walk : p.walk.Nodup := by
  rw [walk_eq_tour]
  refine nodup_tour hp.linked ⟨hp.linked.blocksOps_lt _, ?_, ?_⟩
  · refine List.nodup_flatMap.2 ⟨fun b _ => hp.linked.nodup_ops b, hp.nodup_bodies.imp ?_⟩
    intro b c hbc o hb hc
    exact hbc ((hp.linked.parent_of_mem_ops hb).symm.trans (hp.linked.parent_of_mem_ops hc))
  · have hroot : ∀ o ∈ p.blocksOps (p.funcs.map (·.body)), p.parentOp? o = none := by
      intro o ho
      obtain ⟨b, hb, ho⟩ := List.mem_flatMap.1 ho
      rw [parentOp?, hp.linked.parent_of_mem_ops ho]
      exact ((hp.mem_bodies b).1 hb).2
    exact fun o ho z hz => (hroot o ho).trans (hroot z hz).symm

end Program.WellFormed

/-! ## Trying a text -/

/-- The text is accepted, and the program passes the test. -/
def accepts (source : String) (test : Program → Bool) : Bool :=
  match readProgram source with
  | .error _ => false
  | .ok p => test p

theorem accepts_iff {source : String} {test : Program → Bool} :
    accepts source test = true ↔ ∃ p, readProgram source = .ok p ∧ test p = true := by
  rw [accepts]
  cases hread : readProgram source with
  | error ds => exact iff_of_false Bool.false_ne_true fun ⟨p, hp, _⟩ => nomatch hp
  | ok p =>
    constructor
    · exact fun h => ⟨p, rfl, h⟩
    · rintro ⟨q, hq, h⟩
      obtain rfl := Except.ok.inj hq
      exact h

end AsyncOrder
