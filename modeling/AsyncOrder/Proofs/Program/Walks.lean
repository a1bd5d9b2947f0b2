import AsyncOrder.Proofs.Program.Arena
import AsyncOrder.Proofs.Basic
import Mathlib.Data.List.Flatten
import Mathlib.Logic.Relation

/-!
# The order of a walk

In a linked program a walk ends by itself, since what lies in an operation has a lesser number.
`tour enters ops` is a walk deep enough:

    tour enters ops      = ops.flatMap fun o => tour enters [o]
    tour enters [z]      = z :: if enters z then tour enters (nested z) else []
    x ∈ tour enters [z]  ↔ x lies in z, through operations that are entered      (Under)

It meets every operation once, and what stands before an operation, with all that lies in it,
comes before that operation and all that lies there.
-/

namespace AsyncOrder.Program

open Relation

variable {p : Program} {enters : OpId → Bool} {ops : List OpId} {x y z a o : OpId}

/-! ## Nesting -/

theorem Linked.mem_nested_iff (hp : p.Linked) :
    y ∈ p.nested z ↔ y.index < p.ops.size ∧ p.parentOp? y = some z := by
  simp only [Program.nested, List.mem_flatMap, parentOp?]
  constructor
  · rintro ⟨b, hb, hy⟩
    obtain ⟨hlt, rfl⟩ := (hp.mem_ops b y).1 hy
    exact ⟨hlt, (hp.mem_regions z _).1 hb⟩
  · rintro ⟨hlt, hz⟩
    exact ⟨_, (hp.mem_regions z _).2 hz, hp.mem_ops_parent hlt⟩

theorem Linked.nested_lt (hp : p.Linked) (hy : y ∈ p.nested z) : y.index < z.index := by
  obtain ⟨b, hb, hy⟩ := List.mem_flatMap.1 hy
  exact hp.nested b y z ((hp.mem_regions z b).1 hb) hy

theorem Linked.nodup_nested (hp : p.Linked) (z : OpId) : (p.nested z).Nodup := by
  refine List.nodup_flatMap.2 ⟨fun b _ => hp.nodup_ops b, (hp.nodup_regions z).imp ?_⟩
  intro b c hbc y hyb hyc
  exact hbc ((hp.parent_of_mem_ops hyb).symm.trans (hp.parent_of_mem_ops hyc))

/-- `y` lies directly in `z`, which is entered. -/
def Entered (p : Program) (enters : OpId → Bool) (z y : OpId) : Prop :=
  enters z = true ∧ y ∈ p.nested z

/-- `x` is `z` or lies in it, through operations that are entered. -/
def Under (p : Program) (enters : OpId → Bool) : OpId → OpId → Prop :=
  ReflTransGen (p.Entered enters)

theorem Under.index_le (hp : p.Linked) (h : p.Under enters z x) : x.index ≤ z.index := by
  induction h with
  | refl => exact Nat.le_refl _
  | tail _ hlast ih => exact Nat.le_trans (Nat.le_of_lt (hp.nested_lt hlast.2)) ih

theorem Under.index_lt (hp : p.Linked) (h : p.Under enters z x) (hz : z.index < p.ops.size) :
    x.index < p.ops.size :=
  Nat.lt_of_le_of_lt (h.index_le hp) hz

/-- Of two operations around a third, one lies in the other. -/
theorem Under.total (hp : p.Linked) (h : p.Under enters z x) (h' : p.Under enters a x) :
    p.Under enters z a ∨ p.Under enters a z := by
  have hunique : Relator.RightUnique (Function.swap (p.Entered enters)) := by
    intro x y z hy hz
    have hy := ((hp.mem_nested_iff).1 hy.2).2
    have hz := ((hp.mem_nested_iff).1 hz.2).2
    exact Option.some.inj (hy.symm.trans hz)
  rcases ReflTransGen.total_of_right_unique hunique (reflTransGen_swap.2 h)
    (reflTransGen_swap.2 h') with h | h
  · exact Or.inr (reflTransGen_swap.1 h)
  · exact Or.inl (reflTransGen_swap.1 h)

/-- What lies in an operation does not lie directly where the operation does. -/
theorem Linked.eq_of_under (hp : p.Linked) (hz : z.index < p.ops.size)
    (hparent : p.parentOp? z = p.parentOp? a) (h : p.Under enters z a) : z = a := by
  rcases ReflTransGen.cases_tail h with rfl | ⟨c, hzc, hca⟩
  · rfl
  · have hcz : z ∈ p.nested c :=
      hp.mem_nested_iff.2 ⟨hz, hparent.trans (hp.mem_nested_iff.1 hca.2).2⟩
    have := hp.nested_lt hcz
    have := Under.index_le hp hzc
    omega

/-! ## Ancestors -/

theorem Linked.ancestors_of_parent (hp : p.Linked) (ho : o.index < p.ops.size)
    (h : p.parentOp? o = some z) : p.ancestors o = z :: p.ancestors z := by
  have hsame : ∀ n m o, o.index < p.ops.size → p.ops.size ≤ n + o.index →
      p.ops.size ≤ m + o.index → p.ancestorsUpTo n o = p.ancestorsUpTo m o := by
    intro n
    induction n with
    | zero => intro m o ho hn; omega
    | succ n ih =>
      intro m o ho hn hm
      obtain ⟨m, rfl⟩ : ∃ m', m = m' + 1 := ⟨m - 1, by omega⟩
      rw [ancestorsUpTo, ancestorsUpTo]
      cases h : p.parentOp? o with
      | none => rfl
      | some z =>
        have hlt := hp.nested_lt (hp.mem_nested_iff.2 ⟨ho, h⟩)
        exact congrArg (z :: ·) (ih m z (hp.owner_lt h) (by omega) (by omega))
  rw [ancestors, hsame _ (p.ops.size + 1) o ho (by omega) (by omega), ancestorsUpTo, h]
  rfl

theorem ancestors_of_none (ho : o.index < p.ops.size)
    (h : p.parentOp? o = none) : p.ancestors o = [] := by
  obtain ⟨n, hn⟩ : ∃ n, p.ops.size = n + 1 := ⟨p.ops.size - 1, by omega⟩
  rw [ancestors, hn, ancestorsUpTo, h]

theorem Linked.mem_ancestors (hp : p.Linked) (ho : o.index < p.ops.size) :
    a ∈ p.ancestors o ↔ ∃ z, p.parentOp? o = some z ∧ p.Under (fun _ => true) a z := by
  obtain ⟨n, hn⟩ : ∃ n, p.ops.size - o.index ≤ n := ⟨_, Nat.le_refl _⟩
  -- outwards, since what an operation lies in has the greater number
  induction n generalizing o with
  | zero => omega
  | succ n ih =>
    cases h : p.parentOp? o with
    | none => simp [ancestors_of_none ho h]
    | some z =>
      have hz := hp.owner_lt h
      have hlt := hp.nested_lt (hp.mem_nested_iff.2 ⟨ho, h⟩)
      rw [hp.ancestors_of_parent ho h, List.mem_cons, ih hz (by omega)]
      simp only [Option.some.injEq, exists_eq_left']
      constructor
      · rintro (rfl | ⟨b, hb, hab⟩)
        · exact .refl
        · exact hab.tail ⟨rfl, hp.mem_nested_iff.2 ⟨hz, hb⟩⟩
      · intro haz
        rcases ReflTransGen.cases_tail haz with rfl | ⟨b, hab, hb⟩
        · exact Or.inl rfl
        · exact Or.inr ⟨b, (hp.mem_nested_iff.1 hb.2).2, hab⟩

/-! ## Walks of any depth -/

theorem isLive_of_mem_walkFrom {depth : Nat}
    (h : o ∈ p.walkFrom p.isLive enters depth ops) : p.isLive o = true := by
  induction depth generalizing ops with
  | zero => cases h
  | succ depth ih =>
    obtain ⟨z, -, hz⟩ := List.mem_flatMap.1 h
    split at hz
    · next hlive =>
      rcases List.mem_cons.1 hz with rfl | hz
      · exact hlive
      · split at hz
        · exact ih hz
        · cases hz
    · cases hz

theorem walkFrom_append (keep enters : OpId → Bool) (depth : Nat) (ops ops' : List OpId) :
    p.walkFrom keep enters depth (ops ++ ops') =
      p.walkFrom keep enters depth ops ++ p.walkFrom keep enters depth ops' := by
  cases depth with
  | zero => rfl
  | succ depth => exact List.flatMap_append

theorem walkFrom_depth (hp : p.Linked) (keep enters : OpId → Bool) {depth depth' : Nat}
    (h : ∀ o ∈ ops, o.index < depth) (h' : ∀ o ∈ ops, o.index < depth') :
    p.walkFrom keep enters depth ops = p.walkFrom keep enters depth' ops := by
  induction depth generalizing depth' ops with
  | zero =>
    have hnil : ops = [] := List.eq_nil_iff_forall_not_mem.2 fun o ho => by
      have := h o ho
      omega
    subst hnil
    cases depth' <;> rfl
  | succ depth ih =>
    cases depth' with
    | zero =>
      have hnil : ops = [] := List.eq_nil_iff_forall_not_mem.2 fun o ho => by
        have := h' o ho
        omega
      subst hnil
      rfl
    | succ depth' =>
      rw [walkFrom, walkFrom]
      refine List.flatMap_congr fun o ho => ?_
      rw [@ih _ depth']
      · intro y hy
        have := hp.nested_lt hy
        have := h o ho
        omega
      · intro y hy
        have := hp.nested_lt hy
        have := h' o ho
        omega

/-- The live operations of a list and those in them, where they are entered. -/
def tour (p : Program) (enters : OpId → Bool) (ops : List OpId) : List OpId :=
  p.walkFrom p.isLive enters p.walkDepth ops

theorem tour_eq_flatMap (ops : List OpId) :
    p.tour enters ops = ops.flatMap fun o => p.tour enters [o] := by
  simp only [tour, walkDepth, walkFrom, List.flatMap_cons, List.flatMap_nil, List.append_nil]

theorem tour_append (ops ops' : List OpId) :
    p.tour enters (ops ++ ops') = p.tour enters ops ++ p.tour enters ops' :=
  walkFrom_append _ _ _ _ _

theorem tour_sublist {ops' : List OpId} (h : ops.Sublist ops') :
    (p.tour enters ops).Sublist (p.tour enters ops') := by
  rw [tour_eq_flatMap ops, tour_eq_flatMap ops']
  exact h.flatMap _

/-- A walk that keeps more, enters more and finds more inside meets more, in the same order. -/
theorem walkFrom_sublist {q : Program} {keep keep' enters enters' : OpId → Bool}
    (hkeep : ∀ o, keep o = true → keep' o = true)
    (henters : ∀ o, enters o = true → enters' o = true)
    (hnested : ∀ o, (q.nested o).Sublist (p.nested o)) {depth : Nat} {ops ops' : List OpId}
    (hops : ops.Sublist ops') :
    (q.walkFrom keep enters depth ops).Sublist (p.walkFrom keep' enters' depth ops') := by
  induction depth generalizing ops ops' with
  | zero => exact List.Sublist.refl _
  | succ depth ih =>
    refine List.Sublist.trans ?_ (hops.flatMap _)
    refine List.Sublist.flatMap_right _ fun o _ => ?_
    split
    · next ho =>
      rw [if_pos (hkeep o ho)]
      refine List.Sublist.cons_cons o ?_
      split
      · next ho =>
        rw [if_pos (henters o ho)]
        exact ih (hnested o)
      · exact List.nil_sublist _
    · exact List.nil_sublist _

theorem tour_sublist_of_enters {enters' : OpId → Bool}
    (h : ∀ o, enters o = true → enters' o = true) (ops : List OpId) :
    (p.tour enters ops).Sublist (p.tour enters' ops) :=
  walkFrom_sublist (fun _ ho => ho) h (fun _ => List.Sublist.refl _) (List.Sublist.refl ops)

theorem tour_singleton (hp : p.Linked) (hz : z.index < p.ops.size) :
    p.tour enters [z] = z :: if enters z then p.tour enters (p.nested z) else [] := by
  have hlive : p.isLive z = true := by rw [isLive, hp.live z hz]; rfl
  have hdepth : p.walkFrom p.isLive enters p.ops.size (p.nested z) =
      p.tour enters (p.nested z) := by
    refine walkFrom_depth hp _ _ (fun y hy => ?_) fun y hy => ?_
    · have := hp.nested_lt hy
      omega
    · have := hp.nested_lt hy
      rw [walkDepth]
      omega
  rw [tour, walkDepth, walkFrom, List.flatMap_singleton, hlive, if_pos rfl, hdepth]

/-! ## Members -/

theorem mem_tour_iff_exists : x ∈ p.tour enters ops ↔ ∃ z ∈ ops, x ∈ p.tour enters [z] := by
  rw [tour_eq_flatMap, List.mem_flatMap]

theorem mem_tour_singleton (hp : p.Linked) (hz : z.index < p.ops.size) :
    x ∈ p.tour enters [z] ↔ p.Under enters z x := by
  obtain ⟨n, hn⟩ : ∃ n, z.index < n := ⟨_, Nat.lt_succ_self _⟩
  induction n generalizing z with
  | zero => exact absurd hn (Nat.not_lt_zero _)
  | succ n ih =>
    have hstep : x ∈ p.tour enters (p.nested z) ↔ ∃ y ∈ p.nested z, p.Under enters y x := by
      rw [mem_tour_iff_exists]
      refine exists_congr fun y => and_congr_right fun hy => ?_
      have := hp.nested_lt hy
      exact ih (by omega) (by omega)
    rw [tour_singleton hp hz, List.mem_cons]
    constructor
    · rintro (rfl | hx)
      · exact .refl
      · split at hx
        · next henters =>
          obtain ⟨y, hy, hyx⟩ := hstep.1 hx
          exact .head ⟨henters, hy⟩ hyx
        · exact absurd hx List.not_mem_nil
    · intro h
      rcases ReflTransGen.cases_head h with rfl | ⟨y, ⟨henters, hy⟩, hyx⟩
      · exact Or.inl rfl
      · rw [if_pos henters]
        exact Or.inr (hstep.2 ⟨y, hy, hyx⟩)

theorem mem_tour (hp : p.Linked) (hops : ∀ o ∈ ops, o.index < p.ops.size) :
    x ∈ p.tour enters ops ↔ ∃ z ∈ ops, p.Under enters z x := by
  rw [mem_tour_iff_exists]
  exact exists_congr fun z => and_congr_right fun hz => mem_tour_singleton hp (hops z hz)

theorem mem_tour_self (hp : p.Linked) (hops : ∀ o ∈ ops, o.index < p.ops.size) (hz : z ∈ ops) :
    z ∈ p.tour enters ops :=
  (mem_tour hp hops).2 ⟨z, hz, .refl⟩

/-- What lies in an operation of the walk is of the walk, if the operation is entered. -/
theorem mem_tour_of_under (hp : p.Linked) (hops : ∀ o ∈ ops, o.index < p.ops.size)
    (hz : z ∈ p.tour enters ops) (h : p.Under enters z x) : x ∈ p.tour enters ops := by
  obtain ⟨o, ho, hoz⟩ := (mem_tour hp hops).1 hz
  exact (mem_tour hp hops).2 ⟨o, ho, hoz.trans h⟩

theorem lt_of_mem_tour (hp : p.Linked) (hops : ∀ o ∈ ops, o.index < p.ops.size)
    (hx : x ∈ p.tour enters ops) : x.index < p.ops.size := by
  obtain ⟨z, hz, h⟩ := (mem_tour hp hops).1 hx
  exact h.index_lt hp (hops z hz)

/-! ## Each once -/

/-- Operations of one nesting level, each once. -/
structure Siblings (p : Program) (ops : List OpId) : Prop where
  lt : ∀ o ∈ ops, o.index < p.ops.size
  nodup : ops.Nodup
  parent : ∀ o ∈ ops, ∀ z ∈ ops, p.parentOp? o = p.parentOp? z

theorem Linked.siblings_nested (hp : p.Linked) (hz : z.index < p.ops.size) :
    p.Siblings (p.nested z) where
  lt y hy := Nat.lt_trans (hp.nested_lt hy) hz
  nodup := hp.nodup_nested z
  parent y hy x hx := by rw [(hp.mem_nested_iff.1 hy).2, (hp.mem_nested_iff.1 hx).2]

/-- Of two siblings neither lies in the other. -/
theorem Siblings.eq_of_under (hp : p.Linked) (hops : p.Siblings ops) (hz : z ∈ ops)
    (ha : a ∈ ops) (h : p.Under enters z a) : z = a :=
  hp.eq_of_under (hops.lt z hz) (hops.parent z hz a ha) h

theorem nodup_tour (hp : p.Linked) (hops : p.Siblings ops) : (p.tour enters ops).Nodup := by
  have key : ∀ n, ∀ ops, p.Siblings ops → (∀ o ∈ ops, o.index < n) →
      (p.tour enters ops).Nodup := by
    intro n
    induction n with
    | zero =>
      intro ops _ hlt
      have hnil : ops = [] := List.eq_nil_iff_forall_not_mem.2 fun o ho =>
        Nat.not_lt_zero _ (hlt o ho)
      subst hnil
      exact List.nodup_nil
    | succ n ih =>
      intro ops hops hlt
      rw [tour_eq_flatMap, List.nodup_flatMap]
      constructor
      · intro z hz
        rw [tour_singleton hp (hops.lt z hz)]
        split
        · have hnested := hp.siblings_nested (hops.lt z hz)
          have hless : ∀ y ∈ p.nested z, y.index < n := fun y hy => by
            have := hp.nested_lt hy
            have := hlt z hz
            omega
          refine List.nodup_cons.2 ⟨fun hmem => ?_, ih _ hnested hless⟩
          obtain ⟨y, hy, hyz⟩ := (mem_tour hp hnested.lt).1 hmem
          have := hp.nested_lt hy
          have := Under.index_le hp hyz
          omega
        · exact List.nodup_singleton z
      · refine List.Pairwise.imp_of_mem (fun {z a} hz ha hne => ?_) hops.nodup
        intro x hxz hxa
        have hxz := (mem_tour_singleton hp (hops.lt z hz)).1 hxz
        have hxa := (mem_tour_singleton hp (hops.lt a ha)).1 hxa
        rcases hxz.total hp hxa with h | h
        · exact hne (hops.eq_of_under hp hz ha h)
        · exact hne (hops.eq_of_under hp ha hz h).symm
  exact key p.ops.size ops hops hops.lt

/-! ## What comes first -/

theorem tour_nested_sublist (hp : p.Linked) (hz : z.index < p.ops.size)
    (henters : enters z = true) :
    (p.tour enters (p.nested z)).Sublist (p.tour enters [z]) := by
  rw [tour_singleton hp hz, if_pos henters]
  exact List.sublist_cons_self _ _

theorem tour_sublist_of_under (hp : p.Linked) (hz : z.index < p.ops.size)
    (h : p.Under enters z x) : (p.tour enters [x]).Sublist (p.tour enters [z]) := by
  induction h with
  | refl => exact List.Sublist.refl _
  | tail hzb hbx ih =>
    refine List.Sublist.trans ?_ ih
    refine List.Sublist.trans ?_ (tour_nested_sublist hp (Under.index_lt hp hzb hz) hbx.1)
    exact tour_sublist (List.singleton_sublist.2 hbx.2)

theorem tour_sublist_of_mem (hp : p.Linked) (hops : ∀ o ∈ ops, o.index < p.ops.size)
    (hz : z ∈ p.tour enters ops) : (p.tour enters [z]).Sublist (p.tour enters ops) := by
  obtain ⟨o, ho, h⟩ := (mem_tour hp hops).1 hz
  exact (tour_sublist_of_under hp (hops o ho) h).trans
    (tour_sublist (List.singleton_sublist.2 ho))

/-- An operation comes before what lies in it. -/
theorem pair_sublist_of_nested (hp : p.Linked) (hops : ∀ o ∈ ops, o.index < p.ops.size)
    (hz : z ∈ p.tour enters ops) (henters : enters z = true) (hy : y ∈ p.nested z)
    (h : p.Under enters y x) : [z, x].Sublist (p.tour enters ops) := by
  have hzlt := lt_of_mem_tour hp hops hz
  refine List.Sublist.trans ?_ (tour_sublist_of_mem hp hops hz)
  rw [tour_singleton hp hzlt, if_pos henters]
  refine List.Sublist.cons_cons z (List.singleton_sublist.2 ?_)
  exact (mem_tour hp (hp.siblings_nested hzlt).lt).2 ⟨y, hy, h⟩

/-- All operations of some blocks. -/
def blocksOps (p : Program) (blocks : List BlockId) : List OpId :=
  blocks.flatMap fun b => (p.block b).ops

theorem Linked.blocksOps_lt (hp : p.Linked) (blocks : List BlockId) :
    ∀ o ∈ p.blocksOps blocks, o.index < p.ops.size := by
  intro o ho
  obtain ⟨b, -, ho⟩ := List.mem_flatMap.1 ho
  exact hp.size_of_mem_ops ho

/-- With an operation a walk meets all of its block, in the order of the block. -/
theorem tour_block_sublist (hp : p.Linked) {blocks : List BlockId}
    (ha : a ∈ p.tour enters (p.blocksOps blocks)) :
    (p.tour enters (p.block (p.op a).parent).ops).Sublist
      (p.tour enters (p.blocksOps blocks)) := by
  have hlt := hp.blocksOps_lt blocks
  obtain ⟨o, ho, h⟩ := (mem_tour hp hlt).1 ha
  rcases ReflTransGen.cases_tail h with rfl | ⟨c, hoc, hca⟩
  · obtain ⟨b, hb, ho⟩ := List.mem_flatMap.1 ho
    rw [hp.parent_of_mem_ops ho]
    exact tour_sublist (sublist_flatMap_of_mem (f := fun b => (p.block b).ops) hb)
  · obtain ⟨b, hb, ha⟩ := List.mem_flatMap.1 hca.2
    rw [hp.parent_of_mem_ops ha]
    have hc := (mem_tour hp hlt).2 ⟨o, ho, hoc⟩
    refine List.Sublist.trans ?_ (tour_sublist_of_mem hp hlt hc)
    refine List.Sublist.trans ?_ (tour_nested_sublist hp (lt_of_mem_tour hp hlt hc) hca.1)
    exact tour_sublist (sublist_flatMap_of_mem (f := fun b => (p.block b).ops) hb)

/-- What stands before an operation comes, with all that lies in it, before that operation and
all that lies there. -/
theorem pair_sublist_of_before (hp : p.Linked) {blocks : List BlockId}
    (ha : a ∈ p.tour enters (p.blocksOps blocks)) (hz : z.index < p.ops.size)
    (hparent : (p.op z).parent = (p.op a).parent) (hza : z.index < a.index)
    (hx : p.Under enters z x) (hy : p.Under enters a y) :
    [x, y].Sublist (p.tour enters (p.blocksOps blocks)) := by
  have halt := lt_of_mem_tour hp (hp.blocksOps_lt blocks) ha
  refine List.Sublist.trans ?_ (tour_block_sublist hp ha)
  have hza : [z, a].Sublist (p.block (p.op a).parent).ops :=
    pair_sublist (hp.sorted _) (hparent ▸ hp.mem_ops_parent hz) (hp.mem_ops_parent halt) hza
  refine List.Sublist.trans ?_ (tour_sublist hza)
  rw [show [z, a] = [z] ++ [a] from rfl, tour_append]
  exact (List.singleton_sublist.2 ((mem_tour_singleton hp hz).2 hx)).append
    (List.singleton_sublist.2 ((mem_tour_singleton hp halt).2 hy))

/-! ## All operations -/

theorem walk_eq_tour :
    p.walk = p.tour (fun _ => true) (p.blocksOps (p.funcs.map (·.body))) := by
  have hblocks : ∀ blocks : List BlockId, p.tour (fun _ => true) (p.blocksOps blocks) =
      blocks.flatMap p.walkBlock := by
    intro blocks
    induction blocks with
    | nil => rfl
    | cons b blocks ih =>
      rw [List.flatMap_cons, ← ih]
      exact tour_append _ _
  rw [hblocks, walk, List.flatMap_map]

end AsyncOrder.Program
