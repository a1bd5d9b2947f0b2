import AsyncOrder.Proofs.Graph.Cycle
import Mathlib.Data.List.Sort

/-!
# The reduction of a graph

The reduction keeps the edges between which there is no longer path.  In a graph without cycles
it has the paths of the graph, and it depends on nothing but these paths:

    g.reduction.Path u v ↔ g.Path u v                                        (path_reduction)
    (∀ u v, g.Path u v ↔ h.Path u v) → g.reduction.edges = h.reduction.edges (reduction_edges_congr)

Both also hold of the graph that a set of allowed vertices leaves over, as far as the edges
between allowed vertices are implied within the set.
-/

namespace AsyncOrder.Digraph

open Relation

section

variable (g : Digraph)

/-- The targets of the edges from `u` that no longer path replaces, in ascending order. -/
def essential (t : SuccessorTable) (u : Nat) : List Nat :=
  let beyond := IndexSet.ofList (visit t.next g.size ((t.next u).flatMap t.next) .empty)
  ((t.next u).filter fun v => !beyond.contains v).eraseDups.mergeSort

/-- The edges that no longer path replaces. -/
def reduction : Digraph :=
  let t := g.table
  { g with edges := (List.range g.size).flatMap fun u => (g.essential t u).map (u, ·) }

end

variable {g h : Digraph} {u v w : Nat}

/-- A path of two or more edges leads from `u` to `v`. -/
def Implied (g : Digraph) (u v : Nat) : Prop := ∃ w, g.Edge u w ∧ g.Path w v

/-- A path leads from `u` to `v`, and none by way of a third vertex. -/
def Covers (g : Digraph) (u v : Nat) : Prop :=
  g.Path u v ∧ ¬ ∃ w, g.Path u w ∧ g.Path w v

/-! ## Kept edges -/

theorem mem_essential (hg : g.Bounded) (hu : u < g.size) :
    v ∈ g.essential g.table u ↔ g.Edge u v ∧ ¬ g.Implied u v := by
  have hnext : ∀ w, w ∈ (g.table.next u).flatMap g.table.next ↔
      ∃ x, g.Edge u x ∧ g.Edge x w := by
    intro w
    simp only [List.mem_flatMap, mem_next_table hu]
    exact exists_congr fun x => and_congr_right fun hx => mem_next_table (hg u x hx).2
  have hbeyond : v ∈ visit g.table.next g.size ((g.table.next u).flatMap g.table.next) .empty ↔
      g.Implied u v := by
    rw [mem_visit_table hg fun w hw => by
      obtain ⟨x, -, hxw⟩ := (hnext w).1 hw
      exact (hg x w hxw).2]
    simp only [hnext, Implied]
    constructor
    · rintro ⟨w, ⟨x, hux, hxw⟩, hwv⟩
      exact ⟨x, hux, TransGen.head' hxw hwv⟩
    · rintro ⟨x, hux, hxv⟩
      obtain ⟨w, hxw, hwv⟩ := TransGen.head'_iff.1 hxv
      exact ⟨w, ⟨x, hux, hxw⟩, hwv⟩
  simp only [essential, List.mem_mergeSort, List.mem_eraseDups, List.mem_filter,
    mem_next_table hu, IndexSet.contains_ofList, Bool.not_eq_true', decide_eq_false_iff_not,
    hbeyond]

theorem edge_reduction (hg : g.Bounded) :
    g.reduction.Edge u v ↔ g.Edge u v ∧ ¬ g.Implied u v := by
  simp only [Edge, reduction, List.mem_flatMap, List.mem_range, List.mem_map, Prod.mk.injEq]
  constructor
  · rintro ⟨x, hx, y, hy, rfl, rfl⟩
    exact (mem_essential hg hx).1 hy
  · intro huv
    have hu := (hg u v huv.1).1
    exact ⟨u, hu, v, (mem_essential hg hu).2 huv, rfl, rfl⟩

theorem edge_of_edge_reduction (hg : g.Bounded) (h : g.reduction.Edge u v) : g.Edge u v :=
  ((edge_reduction hg).1 h).1

theorem bounded_reduction (hg : g.Bounded) : g.reduction.Bounded :=
  fun u v h => hg u v (edge_of_edge_reduction hg h)

/-- Kept edges are told by the paths alone. -/
theorem edge_and_not_implied_iff : g.Edge u v ∧ ¬ g.Implied u v ↔ g.Covers u v := by
  constructor
  · rintro ⟨huv, hnot⟩
    refine ⟨.single huv, ?_⟩
    rintro ⟨w, huw, hwv⟩
    obtain ⟨x, hux, hxw⟩ := TransGen.head'_iff.1 huw
    exact hnot ⟨x, hux, TransGen.trans_right hxw hwv⟩
  · rintro ⟨huv, hnot⟩
    obtain ⟨x, hux, hxv⟩ := TransGen.head'_iff.1 huv
    refine ⟨?_, fun ⟨w, huw, hwv⟩ => hnot ⟨w, .single huw, hwv⟩⟩
    rcases reflTransGen_iff_eq_or_transGen.1 hxv with rfl | hxv
    · exact hux
    · exact absurd ⟨x, .single hux, hxv⟩ hnot

/-! ## The same paths -/

/-- If allowed vertices are joined by paths within the allowed ones wherever an edge between
them is implied, then the kept edges suffice for all paths within. -/
theorem path_within_reduction (hg : g.Bounded) (hacyc : g.Acyclic) (ok : Nat → Prop)
    (himp : ∀ u v, ok u → ok v → g.Edge u v → g.Implied u v →
      ∃ w, (ok w ∧ g.Edge u w) ∧ TransGen (fun a b => g.Edge a b ∧ ok a ∧ ok b) w v)
    (h : TransGen (fun a b => g.Edge a b ∧ ok a ∧ ok b) u v) :
    TransGen (fun a b => g.reduction.Edge a b ∧ ok a ∧ ok b) u v := by
  obtain ⟨height, hheight⟩ := exists_height hg hacyc
  have lower : ∀ {a b}, TransGen (fun a b => g.Edge a b ∧ ok a ∧ ok b) a b →
      height b < height a := by
    intro a b hab
    induction hab with
    | single h => exact hheight _ _ h.1
    | tail _ h ih => exact Nat.lt_trans (hheight _ _ h.1) ih
  -- by induction on how far the ends lie apart; an implied edge splits into shorter stretches
  have key : ∀ n a b, height a - height b ≤ n →
      TransGen (fun a b => g.Edge a b ∧ ok a ∧ ok b) a b →
      TransGen (fun a b => g.reduction.Edge a b ∧ ok a ∧ ok b) a b := by
    intro n
    induction n with
    | zero =>
      intro a b hn hab
      have := lower hab
      omega
    | succ n ih =>
      intro a b hn hab
      obtain ⟨c, ⟨hac, ha, hc⟩, hcb⟩ := TransGen.head'_iff.1 hab
      have hlow := hheight a c hac
      rcases reflTransGen_iff_eq_or_transGen.1 hcb with rfl | hcb
      · by_cases hi : g.Implied a b
        · obtain ⟨w, ⟨hw, haw⟩, hwb⟩ := himp a b ha hc hac hi
          have h₁ := hheight a w haw
          have h₂ := lower hwb
          exact (ih a w (by omega) (.single ⟨haw, ha, hw⟩)).trans (ih w b (by omega) hwb)
        · exact .single ⟨(edge_reduction hg).2 ⟨hac, hi⟩, ha, hc⟩
      · have h₂ := lower hcb
        exact (ih a c (by omega) (.single ⟨hac, ha, hc⟩)).trans (ih c b (by omega) hcb)
  exact key _ u v (Nat.le_refl _) h

/-- The reduction of a graph without cycles has the paths of the graph. -/
theorem path_reduction (hg : g.Bounded) (hacyc : g.Acyclic) :
    g.reduction.Path u v ↔ g.Path u v := by
  refine ⟨path_of_edges fun a b hab => .single (edge_of_edge_reduction hg hab), fun huv => ?_⟩
  have h := path_within_reduction hg hacyc (fun _ => True)
    (fun a b _ _ _ ⟨w, haw, hwb⟩ => ⟨w, ⟨trivial, haw⟩, by simpa [Path] using hwb⟩)
    (u := u) (v := v) (by simpa [Path] using huv)
  simpa [Path] using h

/-! ## Uniqueness -/

theorem pairwise_essential (t : SuccessorTable) (u : Nat) : (g.essential t u).Pairwise (· < ·) := by
  have hle : (g.essential t u).Pairwise (· ≤ ·) := by
    have := @List.pairwise_mergeSort Nat (fun a b => decide (a ≤ b))
      (by simp only [decide_eq_true_eq]; omega) (by simp only [Bool.or_eq_true, decide_eq_true_eq]; omega)
      ((t.next u).filter fun v => !(IndexSet.ofList
        (visit t.next g.size ((t.next u).flatMap t.next) .empty)).contains v).eraseDups
    simpa [essential] using this
  have hnd : (g.essential t u).Nodup :=
    (List.mergeSort_perm _ _).nodup_iff.2 (nodup_eraseDups _)
  exact (hle.and hnd).imp fun h => Nat.lt_of_le_of_ne h.1 h.2

/-- The reduction is determined by the paths. -/
theorem reduction_edges_congr (hg : g.Bounded) (hh : h.Bounded) (hsize : g.size = h.size)
    (hpath : ∀ u v, g.Path u v ↔ h.Path u v) : g.reduction.edges = h.reduction.edges := by
  have hess : ∀ u < g.size, g.essential g.table u = h.essential h.table u := by
    intro u hu
    apply List.Perm.eq_of_pairwise' (r := (· < ·)) (pairwise_essential _ _) (pairwise_essential _ _)
    rw [List.perm_ext_iff_of_nodup ((pairwise_essential _ _).imp Nat.ne_of_lt)
      ((pairwise_essential _ _).imp Nat.ne_of_lt)]
    intro v
    rw [mem_essential hg hu, mem_essential hh (hsize ▸ hu), edge_and_not_implied_iff,
      edge_and_not_implied_iff]
    simp only [Covers, hpath]
  simp only [reduction, ← hsize]
  exact List.flatMap_congr fun u hu => by rw [hess u (List.mem_range.1 hu)]

end AsyncOrder.Digraph
