import AsyncOrder.Proofs.Graph.Path
import Mathlib.Data.List.Nodup

/-!
# Cycles

A vertex is finished after what it leads to, unless that leads back to it.  So an edge that leads
backwards in the depth-first order betrays a cycle, and where there is none the order puts every
vertex before those it leads to:

    g.cycleVertex? = none ↔ g.Acyclic           (cycleVertex?_eq_none_iff)
    g.cycleVertex? = some v → g.Path v v        (path_of_cycleVertex?)

Without cycles the number of vertices from a vertex to the end of the order is a height that every
edge lowers.
-/

namespace AsyncOrder.Digraph

open Relation

variable {g : Digraph} {u v : Nat}

theorem mem_range_of_mem_next_table (hg : g.Bounded) :
    ∀ a ∈ List.range g.size, ∀ b ∈ g.table.next a, b ∈ List.range g.size := by
  intro a _ b hb
  exact List.mem_range.2 (hg a b ((leads_next_table_iff hg).1 hb)).2

/-- The vertices in the order in which a search finishes them. -/
def finishing (g : Digraph) : List Nat :=
  finished g.table.next g.size (List.range g.size) .empty

theorem nodup_finishing (g : Digraph) : g.finishing.Nodup :=
  (nodup_finished g.size (List.range g.size) .empty).1

theorem mem_finishing (hg : g.Bounded) (hv : v < g.size) : v ∈ g.finishing :=
  mem_finished (mem_range_of_mem_next_table hg) (fun _ h => h) (by simp) (List.mem_range.2 hv)

theorem nodup_order (g : Digraph) : g.order.Nodup := List.nodup_reverse.2 (nodup_finishing g)

theorem mem_order (hg : g.Bounded) : v ∈ g.order ↔ v < g.size := by
  refine ⟨fun hv => ?_, fun hv => List.mem_reverse.2 (mem_finishing hg hv)⟩
  obtain ⟨s, hs, hsv⟩ := finished_sound (List.mem_reverse.1 hv)
  rcases ReflTransGen.cases_tail hsv with rfl | ⟨u, -, huv⟩
  · exact List.mem_range.1 hs
  · exact (hg u v ((leads_next_table_iff hg).1 huv)).2

theorem finishing_eq {l₁ l₂ : List Nat} (h : g.order = l₁ ++ v :: l₂) :
    g.finishing = l₂.reverse ++ v :: l₁.reverse := by
  rw [order, List.reverse_eq_iff] at h
  rw [finishing, h]
  simp

/-- An edge leads to a vertex finished earlier, or to one that leads back. -/
theorem mem_or_path_of_finishing_eq (hg : g.Bounded) (huv : g.Edge u v) {l₁ l₂ : List Nat}
    (h : g.finishing = l₁ ++ u :: l₂) : v ∈ l₁ ∨ g.Path u u := by
  refine (finished_before (mem_range_of_mem_next_table hg) (fun _ h => h) (by simp)
    ((leads_next_table_iff hg).2 huv) h).imp_right fun hvu => ?_
  refine TransGen.head' huv (ReflTransGen.mono (fun a b hab => ?_) v u hvu)
  exact (leads_next_table_iff hg).1 hab

/-- Without cycles every edge leads to a vertex finished earlier. -/
theorem mem_of_finishing_eq (hg : g.Bounded) (hacyc : g.Acyclic) (huv : g.Edge u v)
    {l₁ l₂ : List Nat} (h : g.finishing = l₁ ++ u :: l₂) : v ∈ l₁ :=
  (mem_or_path_of_finishing_eq hg huv h).resolve_right (hacyc u)

/-- The later of two vertices is finished first. -/
theorem exists_finishing_eq {l₁ l₂ : List Nat} (h : g.order = l₁ ++ v :: l₂) (hu : u ∈ l₂) :
    ∃ m₁ m₂, g.finishing = m₁ ++ u :: m₂ ∧ v ∉ m₁ := by
  have hfin := finishing_eq h
  obtain ⟨m₁, m₂, hm⟩ := List.append_of_mem (List.mem_reverse.2 hu)
  refine ⟨m₁, m₂ ++ v :: l₁.reverse, by rw [hfin, hm, List.append_assoc, List.cons_append], ?_⟩
  have hnd := nodup_finishing g
  rw [hfin, List.nodup_middle, List.nodup_cons, List.mem_append, hm] at hnd
  exact fun hv => hnd.1 (Or.inl (List.mem_append_left _ hv))

/-! ## What is reported -/

theorem edge_of_selfLoop? (hg : g.Bounded) (h : g.selfLoop? = some v) : g.Edge v v := by
  have hv := List.find?_some h
  rw [decide_eq_true_eq] at hv
  exact (leads_next_table_iff hg).1 hv

theorem not_edge_of_selfLoop?_eq_none (hg : g.Bounded) (h : g.selfLoop? = none) :
    ¬ g.Edge v v := by
  intro hv
  rw [selfLoop?, List.find?_eq_none] at h
  refine h v ?_ (decide_eq_true ((leads_next_table_iff hg).2 hv))
  exact (mem_visit_table hg fun w hw => List.mem_range.1 hw).2
    ⟨v, List.mem_range.2 (hg v v hv).1, .refl⟩

/-- What is reported is a predecessor that comes later. -/
theorem exists_of_latePredecessor? {sources : SuccessorTable} {l : List Nat} :
    ∀ {before : IndexSet}, latePredecessor? sources before l = some u →
      before.contains u = false ∧
        ∃ l₁ v l₂, l = l₁ ++ v :: l₂ ∧ u ∈ sources.next v ∧ u ∉ l₁ ∧ u ≠ v := by
  induction l with
  | nil => exact fun h => nomatch h
  | cons v l ih =>
    intro before h
    rw [latePredecessor?] at h
    split at h
    · next w hfirst =>
      obtain rfl := Option.some.inj h
      have hw := List.find?_some hfirst
      simp only [IndexSet.contains_insert, Bool.not_or, Bool.and_eq_true, Bool.not_eq_true',
        decide_eq_false_iff_not] at hw
      exact ⟨hw.1, [], v, l, rfl, List.mem_of_find?_eq_some hfirst, by simp,
        fun heq => hw.2 heq.symm⟩
    · obtain ⟨hbefore, l₁, w, l₂, rfl, hu, hul, hne⟩ := ih h
      rw [IndexSet.contains_insert, Bool.or_eq_false_iff, decide_eq_false_iff_not] at hbefore
      refine ⟨hbefore.1, v :: l₁, w, l₂, rfl, hu, fun hmem => ?_, hne⟩
      exact (List.mem_cons.1 hmem).elim (fun heq => hbefore.2 heq.symm) hul

/-- Where nothing is reported, every predecessor comes earlier. -/
theorem mem_of_latePredecessor?_eq_none {sources : SuccessorTable} {l : List Nat} :
    ∀ {before : IndexSet}, latePredecessor? sources before l = none →
      ∀ {l₁ v l₂}, l = l₁ ++ v :: l₂ → ∀ u ∈ sources.next v,
        u ∈ l₁ ∨ u = v ∨ before.contains u = true := by
  induction l with
  | nil => exact fun _ _ _ _ hl => absurd hl (by simp)
  | cons w l ih =>
    intro before h l₁ v l₂ hl u hu
    rw [latePredecessor?] at h
    split at h
    · cases h
    · next hfirst =>
      cases l₁ with
      | nil =>
        obtain ⟨rfl, rfl⟩ := List.cons.inj hl
        rw [List.find?_eq_none] at hfirst
        have hknown := hfirst u hu
        simp only [IndexSet.contains_insert, Bool.not_eq_true', Bool.not_eq_false,
          Bool.or_eq_true, decide_eq_true_eq] at hknown
        exact Or.inr (hknown.symm.imp_left Eq.symm)
      | cons x l₁ =>
        obtain ⟨rfl, rfl⟩ := List.cons.inj hl
        rcases ih h rfl u hu with hmem | heq | hknown
        · exact Or.inl (List.mem_cons_of_mem _ hmem)
        · exact Or.inr (Or.inl heq)
        · rw [IndexSet.contains_insert, Bool.or_eq_true, decide_eq_true_eq] at hknown
          rcases hknown with hknown | rfl
          · exact Or.inr (Or.inr hknown)
          · exact Or.inl List.mem_cons_self

theorem mem_next_flip_table (hg : g.Bounded) : u ∈ g.flip.table.next v ↔ g.Edge u v := by
  constructor
  · exact fun h => edge_flip.1 ((mem_next_table (lt_of_mem_next_table h)).1 h)
  · exact fun h => (mem_next_table (g := g.flip) (hg u v h).2).2 (edge_flip.2 h)

/-- The vertex that is reported lies on a cycle. -/
theorem path_of_cycleVertex? (hg : g.Bounded) (h : g.cycleVertex? = some v) : g.Path v v := by
  rw [cycleVertex?] at h
  split at h
  · next w hself =>
    obtain rfl := Option.some.inj h
    exact .single (edge_of_selfLoop? hg hself)
  · obtain ⟨-, l₁, w, l₂, hl, hedge, hnot, hne⟩ := exists_of_latePredecessor? h
    have hvw := (mem_next_flip_table hg).1 hedge
    have hmem := (mem_order hg).2 (hg v w hvw).1
    rw [hl, List.mem_append, List.mem_cons] at hmem
    obtain ⟨m₁, m₂, hfin, hw⟩ :=
      exists_finishing_eq hl ((hmem.resolve_left hnot).resolve_left hne)
    exact (mem_or_path_of_finishing_eq hg hvw hfin).resolve_left hw

/-- Where nothing is reported, edges lead onwards in the depth-first order. -/
theorem idxOf_order_lt_of_cycleVertex?_eq_none (hg : g.Bounded) (h : g.cycleVertex? = none)
    (huv : g.Edge u v) : g.order.idxOf u < g.order.idxOf v := by
  rw [cycleVertex?] at h
  split at h
  · cases h
  · next hself =>
    obtain ⟨l₁, l₂, hl⟩ := List.append_of_mem ((mem_order hg).2 (hg u v huv).2)
    refine idxOf_lt_idxOf (nodup_order g) ?_
    rw [hl]
    rcases mem_of_latePredecessor?_eq_none h hl u ((mem_next_flip_table hg).2 huv) with
      hu | rfl | hu
    · exact (List.singleton_sublist.2 hu).append (List.singleton_sublist.2 List.mem_cons_self)
    · exact absurd huv (not_edge_of_selfLoop?_eq_none hg hself)
    · simp at hu

/-- Where nothing is reported there are heights that every edge lowers. -/
theorem exists_height_of_cycleVertex?_eq_none (hg : g.Bounded) (h : g.cycleVertex? = none) :
    ∃ height : Nat → Nat, ∀ u v, g.Edge u v → height v < height u := by
  refine ⟨fun v => g.order.length - g.order.idxOf v, fun u v huv => ?_⟩
  have hlt := idxOf_order_lt_of_cycleVertex?_eq_none hg h huv
  have hle : g.order.idxOf v ≤ g.order.length := List.idxOf_le_length
  dsimp only
  omega

/-- A vertex is reported just where there is a cycle. -/
theorem cycleVertex?_eq_none_iff (hg : g.Bounded) : g.cycleVertex? = none ↔ g.Acyclic := by
  constructor
  · intro h
    obtain ⟨height, hheight⟩ := exists_height_of_cycleVertex?_eq_none hg h
    exact acyclic_of_height height fun e he => hheight e.1 e.2 he
  · intro hacyc
    rw [Option.eq_none_iff_forall_ne_some]
    exact fun v hv => hacyc v (path_of_cycleVertex? hg hv)

/-! ## Graphs without cycles -/

/-- Edges lead onwards in the topological order. -/
theorem idxOf_order_lt (hg : g.Bounded) (hacyc : g.Acyclic) (huv : g.Edge u v) :
    g.order.idxOf u < g.order.idxOf v :=
  idxOf_order_lt_of_cycleVertex?_eq_none hg ((cycleVertex?_eq_none_iff hg).2 hacyc) huv

/-- A graph without cycles has heights that every edge lowers. -/
theorem exists_height (hg : g.Bounded) (hacyc : g.Acyclic) :
    ∃ height : Nat → Nat, ∀ u v, g.Edge u v → height v < height u :=
  exists_height_of_cycleVertex?_eq_none hg ((cycleVertex?_eq_none_iff hg).2 hacyc)

end AsyncOrder.Digraph
