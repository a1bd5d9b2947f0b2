import AsyncOrder.Digraph
import AsyncOrder.Proofs.Graph.Search
import Mathlib.Tactic.Tauto

/-!
# Edges and paths

The edges of a graph as a relation, and paths of one or more edges as its transitive closure.
In a graph whose edges stay below `size`,

    (g.addEdges es).Edge u v ↔ g.Edge u v ∨ (u, v) ∈ es            (edge_addEdges)
    v ∈ g.reach vs ↔ v is a member of vs or a path leads there     (mem_reach_iff)
-/

namespace AsyncOrder.Digraph

open Relation

variable {g h : Digraph} {u v w : Nat}

def Edge (g : Digraph) (u v : Nat) : Prop := (u, v) ∈ g.edges

/-- One or more edges lead from `u` to `v`. -/
def Path (g : Digraph) (u v : Nat) : Prop := TransGen g.Edge u v

/-- No path leads back to where it began. -/
def Acyclic (g : Digraph) : Prop := ∀ v, ¬ g.Path v v

/-- Edges join vertices of the graph. -/
def Bounded (g : Digraph) : Prop := ∀ u v, g.Edge u v → u < g.size ∧ v < g.size

/-- Edges lead from smaller to larger numbers. -/
def Forward (g : Digraph) : Prop := ∀ u v, g.Edge u v → u < v

/-! ## Neighbours -/

@[simp]
theorem mem_successors : v ∈ g.successors u ↔ g.Edge u v := by
  simp only [successors, Edge, List.mem_map, List.mem_filter, decide_eq_true_eq]
  constructor
  · rintro ⟨⟨a, b⟩, ⟨hm, rfl⟩, rfl⟩
    exact hm
  · intro hm
    exact ⟨(u, v), ⟨hm, rfl⟩, rfl⟩

@[simp]
theorem mem_predecessors : u ∈ g.predecessors v ↔ g.Edge u v := by
  simp only [predecessors, Edge, List.mem_map, List.mem_filter, decide_eq_true_eq]
  constructor
  · rintro ⟨⟨a, b⟩, ⟨hm, rfl⟩, rfl⟩
    exact hm
  · intro hm
    exact ⟨(u, v), ⟨hm, rfl⟩, rfl⟩

theorem isSink_iff : g.isSink u = true ↔ ∀ v, ¬ g.Edge u v := by
  simp only [isSink, Edge, List.all_eq_true, decide_eq_true_eq, ne_eq]
  constructor
  · intro hall v hm
    exact hall (u, v) hm rfl
  · rintro hall ⟨a, b⟩ hm rfl
    exact hall b hm

theorem isSource_iff : g.isSource v = true ↔ ∀ u, ¬ g.Edge u v := by
  simp only [isSource, Edge, List.all_eq_true, decide_eq_true_eq, ne_eq]
  constructor
  · intro hall u hm
    exact hall (u, v) hm rfl
  · rintro hall ⟨a, b⟩ hm rfl
    exact hall a hm

theorem edge_flip : g.flip.Edge u v ↔ g.Edge v u := by
  simp only [flip, Edge, List.mem_map, Prod.mk.injEq]
  constructor
  · rintro ⟨⟨a, b⟩, hm, rfl, rfl⟩
    exact hm
  · intro hm
    exact ⟨(v, u), hm, rfl, rfl⟩

/-- The table lists what `successors` lists. -/
theorem next_table (hu : u < g.size) : g.table.next u = g.successors u := by
  have key : ∀ es : List (Nat × Nat),
      let rows := es.foldr (fun e rows => rows.modify e.1 (e.2 :: ·)) (Array.replicate g.size [])
      rows.size = g.size ∧ rows[u]?.getD [] = (es.filter (·.1 = u)).map (·.2) := by
    intro es
    induction es with
    | nil => simp [hu]
    | cons e es ih =>
      obtain ⟨hsize, hrow⟩ := ih
      simp only [List.foldr_cons, Array.size_modify]
      refine ⟨hsize, ?_⟩
      rw [Array.getElem?_modify]
      by_cases he : e.1 = u
      · subst he
        rw [List.filter_cons_of_pos (by simp), List.map_cons, ← hrow]
        rw [Array.getElem?_eq_getElem (by omega)]
        simp
      · rw [List.filter_cons_of_neg (by simpa using he), ← hrow, if_neg he]
  exact (key g.edges).2

theorem mem_next_table (hu : u < g.size) : v ∈ g.table.next u ↔ g.Edge u v := by
  rw [next_table hu, mem_successors]

/-- The table has no rows for numbers that are no vertices. -/
theorem lt_of_mem_next_table (hv : v ∈ g.table.next u) : u < g.size := by
  by_contra hu
  have hsize : g.table.rows.size = g.size := by
    have key : ∀ es : List (Nat × Nat),
        (es.foldr (fun e rows => rows.modify e.1 (e.2 :: ·))
          (Array.replicate g.size ([] : List Nat))).size = g.size := by
      intro es
      induction es with
      | nil => simp
      | cons e es ih => simpa using ih
    exact key g.edges
  rw [SuccessorTable.next, Array.getElem?_eq_none (by omega)] at hv
  simp at hv

/-! ## Adding edges -/

theorem contains_targets_modify {rows : Array IndexSet} {a b : Nat} :
    ((rows.modify a (·.insert b))[u]?.getD .empty).contains v = true ↔
      (rows[u]?.getD .empty).contains v = true ∨ u < rows.size ∧ (u, v) = (a, b) := by
  rw [Array.getElem?_modify]
  split
  · next ha =>
    subst ha
    by_cases hlt : a < rows.size
    · rw [Array.getElem?_eq_getElem hlt, Option.map_some, Option.getD_some, Option.getD_some,
        IndexSet.contains_insert, Bool.or_eq_true, decide_eq_true_eq]
      exact or_congr_right ⟨fun h => ⟨hlt, by rw [h]⟩, fun h => (Prod.mk.inj h.2).2.symm⟩
    · simp [hlt]
  · next ha =>
    have hne : (u, v) ≠ (a, b) := fun heq => ha (Prod.mk.inj heq).1.symm
    simp [hne]

/-- An addition in progress takes for targets just those that are. -/
structure Added.Sound (g : Digraph) (a : Added) : Prop where
  size : a.targets.size = g.size
  targets : ∀ u v, (a.targets[u]?.getD .empty).contains v = true ↔
    u < g.size ∧ (g.Edge u v ∨ (u, v) ∈ a.edges.toList)

theorem sound_noneAdded : Added.Sound g g.noneAdded := by
  have key : ∀ (es : List (Nat × Nat)) (rows : Array IndexSet),
      let rows' := es.foldl (fun rows e => rows.modify e.1 (·.insert e.2)) rows
      rows'.size = rows.size ∧ ∀ u v, (rows'[u]?.getD .empty).contains v = true ↔
        (rows[u]?.getD .empty).contains v = true ∨ u < rows.size ∧ (u, v) ∈ es := by
    intro es
    induction es with
    | nil => simp
    | cons e es ih =>
      intro rows
      obtain ⟨hsize, htargets⟩ := ih (rows.modify e.1 (·.insert e.2))
      rw [Array.size_modify] at hsize htargets
      refine ⟨hsize, fun u v => (htargets u v).trans ?_⟩
      rw [contains_targets_modify, List.mem_cons, or_assoc, and_or_left]
  obtain ⟨hsize, htargets⟩ := key g.edges (Array.replicate g.size .empty)
  refine ⟨hsize.trans Array.size_replicate, fun u v => (htargets u v).trans ?_⟩
  have hempty : ((Array.replicate g.size IndexSet.empty)[u]?.getD .empty).contains v = false := by
    rw [Array.getElem?_replicate]
    split <;> simp
  simp [hempty, noneAdded, Edge]

theorem Added.Sound.add {a : Added} (ha : Added.Sound g a) (e : Nat × Nat) :
    Added.Sound g (a.add e) ∧
      ∀ x, x ∈ (a.add e).edges.toList ∨ g.Edge x.1 x.2 ↔
        (x ∈ a.edges.toList ∨ g.Edge x.1 x.2) ∨ x = e := by
  unfold Added.add
  split
  · next hc =>
    refine ⟨ha, fun x => ⟨Or.inl, ?_⟩⟩
    rintro (hx | rfl)
    · exact hx
    · exact ((ha.targets _ _).1 hc).2.symm
  · refine ⟨⟨by rw [Array.size_modify, ha.size], fun u v => ?_⟩, fun x => ?_⟩
    · rw [contains_targets_modify, ha.targets, ha.size, ← and_or_left, Array.toList_push,
        List.mem_append, List.mem_singleton, or_assoc]
    · simp only [Array.toList_push, List.mem_append, List.mem_singleton]
      tauto

/-- An edge is added once. -/
theorem Added.Sound.nodup_add {a : Added} (ha : Added.Sound g a) {e : Nat × Nat} (he : e.1 < g.size)
    (hnodup : (g.edges ++ a.edges.toList).Nodup) : (g.edges ++ (a.add e).edges.toList).Nodup := by
  unfold Added.add
  split
  · exact hnodup
  · next hc =>
    rw [ha.targets, not_and, not_or] at hc
    obtain ⟨hold, hadded⟩ := hc he
    rw [Array.toList_push, ← List.append_assoc, List.nodup_append]
    refine ⟨hnodup, List.nodup_singleton e, fun x hx y hy => ?_⟩
    rw [List.mem_singleton.1 hy]
    rintro rfl
    exact (List.mem_append.1 hx).elim hold hadded

/-- Adding edges adds just those edges. -/
theorem edge_addEdges {es : List (Nat × Nat)} :
    (g.addEdges es).Edge u v ↔ g.Edge u v ∨ (u, v) ∈ es := by
  have key : ∀ (es : List (Nat × Nat)) (a : Added), Added.Sound g a →
      ∀ x, x ∈ (es.foldl Added.add a).edges.toList ∨ g.Edge x.1 x.2 ↔
        (x ∈ a.edges.toList ∨ g.Edge x.1 x.2) ∨ x ∈ es := by
    intro es
    induction es with
    | nil => simp
    | cons e es ih =>
      intro a ha x
      obtain ⟨hs, hm⟩ := ha.add e
      rw [List.foldl_cons, ih _ hs x, hm x, List.mem_cons]
      tauto
  have := key es g.noneAdded sound_noneAdded (u, v)
  simp only [addEdges, Edge, List.mem_append] at this ⊢
  rw [or_comm, this]
  simp [noneAdded]

theorem nodup_addEdges {es : List (Nat × Nat)} (hg : g.edges.Nodup)
    (hes : ∀ e ∈ es, e.1 < g.size) : (g.addEdges es).edges.Nodup := by
  have key : ∀ (es : List (Nat × Nat)) (a : Added), Added.Sound g a → (∀ e ∈ es, e.1 < g.size) →
      (g.edges ++ a.edges.toList).Nodup →
      (g.edges ++ (es.foldl Added.add a).edges.toList).Nodup := by
    intro es
    induction es with
    | nil => exact fun a _ _ hnodup => hnodup
    | cons e es ih =>
      intro a ha hes hnodup
      exact ih _ (ha.add e).1 (fun x hx => hes x (List.mem_cons_of_mem _ hx))
        (ha.nodup_add (hes e List.mem_cons_self) hnodup)
  exact key es g.noneAdded sound_noneAdded hes (by simpa [noneAdded] using hg)

/-! ## Paths -/

theorem Path.lt (hg : g.Forward) (h : g.Path u v) : u < v := by
  induction h with
  | single h => exact hg _ _ h
  | tail _ h ih => exact Nat.lt_trans ih (hg _ _ h)

theorem Forward.acyclic (hg : g.Forward) : g.Acyclic := fun v h => Nat.lt_irrefl v (h.lt hg)

/-- Where every edge leads to a lesser height there is no cycle. -/
theorem acyclic_of_height (height : Nat → Nat) (h : ∀ e ∈ g.edges, height e.2 < height e.1) :
    g.Acyclic := by
  have hlower : ∀ {u v}, g.Path u v → height v < height u := by
    intro u v huv
    induction huv with
    | single huv => exact h _ huv
    | tail _ huv ih => exact Nat.lt_trans (h _ huv) ih
  exact fun v hv => Nat.lt_irrefl _ (hlower hv)

theorem bounded_iff : g.Bounded ↔ ∀ e ∈ g.edges, e.1 < g.size ∧ e.2 < g.size :=
  ⟨fun h e he => h e.1 e.2 he, fun h u v huv => h (u, v) huv⟩

theorem Path.bounded (hg : g.Bounded) (h : g.Path u v) : u < g.size ∧ v < g.size := by
  obtain ⟨w, huw, -⟩ := TransGen.head'_iff.1 h
  obtain ⟨x, -, hxv⟩ := TransGen.tail'_iff.1 h
  exact ⟨(hg _ _ huw).1, (hg _ _ hxv).2⟩

theorem path_of_edges (hgh : ∀ u v, g.Edge u v → h.Path u v) (hp : g.Path u v) : h.Path u v :=
  TransGen.closed hgh u v hp

/-! ## Searching -/

theorem leads_next_table {g : Digraph} : Leads g.table.next u v ↔ u < g.size ∧ g.Edge u v := by
  constructor
  · intro h
    have hu := lt_of_mem_next_table h
    exact ⟨hu, (mem_next_table hu).1 h⟩
  · rintro ⟨hu, h⟩
    exact (mem_next_table hu).2 h

theorem leads_next_table_iff (hg : g.Bounded) : Leads g.table.next u v ↔ g.Edge u v := by
  rw [leads_next_table]
  exact ⟨fun h => h.2, fun h => ⟨(hg _ _ h).1, h⟩⟩

theorem mem_visit_table (hg : g.Bounded) {vs : List Nat} (hvs : ∀ w ∈ vs, w < g.size) :
    v ∈ visit g.table.next g.size vs .empty ↔ ∃ w ∈ vs, ReflTransGen g.Edge w v := by
  have hrel : Leads g.table.next = g.Edge := by
    funext a b
    exact propext (leads_next_table_iff hg)
  have hclosed : ∀ a ∈ List.range g.size, ∀ b ∈ g.table.next a, b ∈ List.range g.size := by
    intro a _ b hb
    exact List.mem_range.2 (hg a b ((leads_next_table_iff hg).1 hb)).2
  rw [mem_visit_iff hclosed (fun a ha => List.mem_range.2 (hvs a ha)) (by simp), hrel]

theorem mem_reach_iff (hg : g.Bounded) {vs : List Nat} (hvs : ∀ w ∈ vs, w < g.size) :
    v ∈ g.reach vs ↔ ∃ w ∈ vs, ReflTransGen g.Edge w v := mem_visit_table hg hvs

/-- `reaches` decides whether there is a path. -/
theorem reaches_iff (hg : g.Bounded) : g.reaches u v = true ↔ g.Path u v := by
  rw [reaches, decide_eq_true_eq, descendants,
    mem_reach_iff hg fun w hw => (hg u w (mem_successors.1 hw)).2]
  simp only [mem_successors]
  exact TransGen.head'_iff.symm

end AsyncOrder.Digraph
