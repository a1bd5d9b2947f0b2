import AsyncOrder.Proofs.Graph.Sweep
import AsyncOrder.Scope.Closure
import AsyncOrder.Scope.Reduction

/-!
# Closed scopes

Where edges lead forwards and the terminator is the last vertex, closing a scope keeps edges
leading forwards, puts every other vertex behind the start and every other vertex but the start
before the terminator:

    v ≠ start            → (s.close).graph.Path start v                   (start_path)
    v ≠ start, v ≠ t     → (s.close).graph.Path v t                       (path_terminator)

So the paths of the closed scope depend on the paths of the scope alone (`path_close_congr`),
and with them the reduced edges.
-/

namespace AsyncOrder.Scope

open AsyncOrder.Digraph Relation

variable {s s' : Scope} {u v t : Nat}

/-- Edges lead forwards, and the terminator is the last vertex. -/
structure Ordered (s : Scope) : Prop where
  bounded : s.graph.Bounded
  forward : s.graph.Forward
  last : ∀ t, s.terminator = some t → t + 1 = s.size

theorem graph_addEdges (es : List (Nat × Nat)) : (s.addEdges es).graph = s.graph.addEdges es := rfl

@[simp]
theorem size_addEdges (es : List (Nat × Nat)) : (s.addEdges es).size = s.size := rfl

@[simp]
theorem addEdges_nil : s.addEdges [] = s := by
  simp [addEdges, Digraph.addEdges, noneAdded, graph]

@[simp]
theorem size_close : s.close.size = s.size := rfl

/-- The scope apart from its edges. -/
def plain (s : Scope) : Scope := { s with edges := [] }

@[simp]
theorem plain_addEdges (es : List (Nat × Nat)) : (s.addEdges es).plain = s.plain := rfl

@[simp]
theorem plain_close : s.close.plain = s.plain := rfl

/-! ## Edges of closed scopes -/

theorem mem_endEdges : (u, v) ∈ s.endEdges ↔ s.terminator = some v ∧ u < s.size ∧ u ≠ start ∧
    u ≠ v ∧ ∀ w, ¬ s.graph.Edge u w := by
  rw [endEdges]
  cases s.terminator with
  | none => simp
  | some t =>
    simp only [indices, List.mem_map, List.mem_filter, List.mem_range, Bool.and_eq_true,
      decide_eq_true_eq, isSink_iff, Prod.mk.injEq, Option.some.injEq]
    constructor
    · rintro ⟨u, ⟨hlt, ⟨hstart, hne⟩, hsink⟩, rfl, rfl⟩
      exact ⟨rfl, hlt, hstart, hne, hsink⟩
    · rintro ⟨rfl, hlt, hstart, hne, hsink⟩
      exact ⟨u, ⟨hlt, ⟨hstart, hne⟩, hsink⟩, rfl, rfl⟩

theorem mem_startEdges : (u, v) ∈ s.startEdges ↔ u = start ∧ v < s.size ∧ v ≠ start ∧
    ∀ w, ¬ s.graph.Edge w v := by
  simp only [startEdges, indices, List.mem_map, List.mem_filter, List.mem_range,
    Bool.and_eq_true, decide_eq_true_eq, isSource_iff, Prod.mk.injEq]
  constructor
  · rintro ⟨v, ⟨hlt, hstart, hsource⟩, rfl, rfl⟩
    exact ⟨rfl, hlt, hstart, hsource⟩
  · rintro ⟨rfl, hlt, hstart, hsource⟩
    exact ⟨v, ⟨hlt, hstart, hsource⟩, rfl, rfl⟩

theorem edge_closeEnd : s.closeEnd.graph.Edge u v ↔ s.graph.Edge u v ∨ (u, v) ∈ s.endEdges := by
  rw [closeEnd, graph_addEdges, edge_addEdges]

theorem edge_close : s.close.graph.Edge u v ↔
    s.graph.Edge u v ∨ (u, v) ∈ s.endEdges ∨ (u, v) ∈ s.closeEnd.startEdges := by
  rw [close, graph_addEdges, edge_addEdges, edge_closeEnd, or_assoc]

theorem edge_close_of_edge (h : s.graph.Edge u v) : s.close.graph.Edge u v :=
  edge_close.2 (Or.inl h)

theorem path_close_of_path (h : s.graph.Path u v) : s.close.graph.Path u v :=
  path_of_edges (fun _ _ h => .single (edge_close_of_edge h)) h

variable (hs : s.Ordered)
include hs

theorem Ordered.bounded_close : s.close.graph.Bounded := by
  intro u v h
  rcases edge_close.1 h with h | h | h
  · exact hs.bounded u v h
  · obtain ⟨ht, hu, -⟩ := mem_endEdges.1 h
    have := hs.last v ht
    exact ⟨hu, show v < s.size by omega⟩
  · obtain ⟨rfl, hv, -⟩ := mem_startEdges.1 h
    exact ⟨Nat.lt_of_le_of_lt (Nat.zero_le v) hv, hv⟩

theorem Ordered.forward_close : s.close.graph.Forward := by
  intro u v h
  rcases edge_close.1 h with h | h | h
  · exact hs.forward u v h
  · obtain ⟨ht, hu, -, hne, -⟩ := mem_endEdges.1 h
    have := hs.last v ht
    omega
  · obtain ⟨rfl, -, hv, -⟩ := mem_startEdges.1 h
    exact Nat.pos_of_ne_zero hv

theorem Ordered.close : s.close.Ordered := ⟨hs.bounded_close, hs.forward_close, hs.last⟩

/-! ## Start and terminator -/

/-- Every vertex comes after the start. -/
theorem Ordered.start_path (hv : v < s.size) (hstart : v ≠ start) :
    s.close.graph.Path start v := by
  -- backwards along predecessors, which have lesser numbers, down to a source
  induction v using Nat.strong_induction_on with
  | _ v ih =>
    by_cases hsource : ∀ w, ¬ s.closeEnd.graph.Edge w v
    · exact .single (edge_close.2 (Or.inr (Or.inr (mem_startEdges.2 ⟨rfl, hv, hstart, hsource⟩))))
    · push Not at hsource
      obtain ⟨w, hw⟩ := hsource
      have hedge : s.close.graph.Edge w v := by
        rcases edge_closeEnd.1 hw with h | h
        · exact edge_close.2 (Or.inl h)
        · exact edge_close.2 (Or.inr (Or.inl h))
      have hlt := hs.forward_close w v hedge
      by_cases hzero : w = start
      · exact hzero ▸ .single hedge
      · exact (ih w hlt (by omega) hzero).tail hedge

/-- Every vertex but the start comes before the terminator. -/
theorem Ordered.path_terminator (ht : s.terminator = some t) (hv : v < s.size)
    (hstart : v ≠ start) (hne : v ≠ t) : s.close.graph.Path v t := by
  obtain ⟨n, hn⟩ : ∃ n, s.size - v ≤ n := ⟨_, Nat.le_refl _⟩
  -- forwards along successors, which have greater numbers, up to a sink
  induction n generalizing v with
  | zero => omega
  | succ n ih =>
    by_cases hsink : ∀ w, ¬ s.graph.Edge v w
    · exact .single (edge_close.2 (Or.inr (Or.inl (mem_endEdges.2 ⟨ht, hv, hstart, hne, hsink⟩))))
    · push Not at hsink
      obtain ⟨w, hw⟩ := hsink
      have hlt := hs.forward v w hw
      have hedge := edge_close_of_edge hw
      by_cases htw : w = t
      · exact htw ▸ .single hedge
      · have hzero : w ≠ start := Nat.ne_of_gt (Nat.lt_of_le_of_lt (Nat.zero_le v) hlt)
        exact .head hedge (ih (hs.bounded v w hw).2 hzero htw (by omega))

/-! ## What closed scopes depend on -/

theorem Ordered.path_close_of_edges (hsize : s.size = s'.size)
    (hterm : s.terminator = s'.terminator)
    (hpath : ∀ u v, s'.graph.Edge u v → s.close.graph.Path u v) (h : s'.close.graph.Path u v) :
    s.close.graph.Path u v := by
  refine path_of_edges (fun u v h => ?_) h
  rcases edge_close.1 h with h | h | h
  · exact hpath u v h
  · obtain ⟨ht, hu, hstart, hne, -⟩ := mem_endEdges.1 h
    exact hs.path_terminator (hterm.trans ht) (hsize ▸ hu) hstart hne
  · obtain ⟨rfl, hv, hstart, -⟩ := mem_startEdges.1 h
    exact hs.start_path (hsize ▸ hv) hstart

/-- Scopes with the same paths have the same paths when closed. -/
theorem Ordered.path_close_congr (hs' : s'.Ordered) (hsize : s.size = s'.size)
    (hterm : s.terminator = s'.terminator)
    (hpath : ∀ u v, s.graph.Path u v ↔ s'.graph.Path u v) :
    s.close.graph.Path u v ↔ s'.close.graph.Path u v :=
  ⟨hs'.path_close_of_edges hsize.symm hterm.symm fun u v h =>
      path_close_of_path ((hpath u v).1 (.single h)),
    hs.path_close_of_edges hsize hterm fun u v h =>
      path_close_of_path ((hpath u v).2 (.single h))⟩

/-- Scopes with the same paths have the same edges when closed and reduced. -/
theorem Ordered.reduction_close_congr (hs' : s'.Ordered) (hsize : s.size = s'.size)
    (hterm : s.terminator = s'.terminator)
    (hpath : ∀ u v, s.graph.Path u v ↔ s'.graph.Path u v) :
    s.close.graph.reduction.edges = s'.close.graph.reduction.edges :=
  reduction_edges_congr hs.bounded_close hs'.bounded_close hsize fun _ _ =>
    hs.path_close_congr hs' hsize hterm hpath

omit hs in
/-- A scope without cycles has none to report, and keeps the edges that no longer path
replaces. -/
theorem reduce_eq_ok (hb : s.graph.Bounded) (hacyc : s.graph.Acyclic) (name : String) :
    s.reduce name = .ok { s with edges := s.graph.reduction.edges } := by
  rw [Scope.reduce, (cycleVertex?_eq_none_iff hb).2 hacyc, reduce_eq_reduction hb hacyc]
  rfl

end AsyncOrder.Scope
