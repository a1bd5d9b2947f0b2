import AsyncOrder.Proofs.Scope.Renumbering
import AsyncOrder.Proofs.Scope.Reporting

/-!
# Least scopes

Whatever edges a tree of scopes without cycles has, in whatever order and how often, and whatever
its terminators are linked to, reducing it does not fail, and every scope keeps its vertices and the
least edges with the same paths:

    t.reduceWithMaps = .ok (r, t.vertexMaps)
    s'.graph.Path u v ↔ s.graph.Path u v                                      (Least.path)
    s'.graph.Edge u v → ¬ s.graph.Implied u v                                 (Least.minimal)
    g has the paths of s, no edge of g is implied → g has the edges of s'     (Least.unique)
-/

namespace AsyncOrder

open AsyncOrder.Digraph

variable {s s' : Scope} {t r : ScopeTree} {g h : Digraph} {u v : Nat}

/-! ## Least graphs -/

namespace Digraph

/-- Graphs with the same paths have the same edges that no longer path replaces. -/
theorem covers_congr (hpath : ∀ u v, g.Path u v ↔ h.Path u v) : g.Covers u v ↔ h.Covers u v := by
  simp only [Covers, hpath]

/-- `h` has of the edges of `g` the least that have the same paths. -/
structure Least (g h : Digraph) : Prop where
  size : h.size = g.size
  subset : h.edges ⊆ g.edges
  /-- In particular each edge comes once. -/
  ascending : h.edges.Pairwise EdgeLt
  path : ∀ u v, h.Path u v ↔ g.Path u v
  minimal : ∀ u v, h.Edge u v → ¬ g.Implied u v
  least : ∀ k : Digraph, (∀ u v, k.Path u v ↔ g.Path u v) → h.edges ⊆ k.edges
  unique : ∀ k : Digraph, (∀ u v, k.Path u v ↔ g.Path u v) →
    (∀ u v, k.Edge u v → ¬ k.Implied u v) → ∀ u v, k.Edge u v ↔ h.Edge u v

theorem least_reduction (hb : g.Bounded) (hacyc : g.Acyclic) : g.Least g.reduction := by
  have hedge : ∀ u v, g.reduction.Edge u v ↔ g.Covers u v := fun u v =>
    (edge_reduction hb).trans edge_and_not_implied_iff
  have hkept : ∀ k : Digraph, (∀ u v, k.Path u v ↔ g.Path u v) →
      ∀ u v, g.reduction.Edge u v ↔ k.Edge u v ∧ ¬ k.Implied u v := fun k hpath u v => by
    rw [hedge, edge_and_not_implied_iff, covers_congr hpath]
  refine ⟨rfl, fun e he => ?_, pairwise_reduction g, fun u v => path_reduction hb hacyc,
    fun u v huv => ?_, fun k hpath e he => ?_, fun k hpath hmin u v => ?_⟩
  · exact @edge_of_edge_reduction g e.1 e.2 hb he
  · exact ((edge_reduction hb).1 huv).2
  · exact ((hkept k hpath e.1 e.2).1 he).1
  · exact ⟨fun huv => (hkept k hpath u v).2 ⟨huv, hmin u v huv⟩,
      fun huv => ((hkept k hpath u v).1 huv).1⟩

end Digraph

/-! ## Scopes -/

/-- `s'` has the vertices of `s`, and of its edges the least that have the same paths. -/
structure Scope.Least (s s' : Scope) : Prop extends s.Kept s' where
  graph : s.graph.Least s'.graph

theorem Scope.least_of_kept (hb : s.graph.Bounded) (hacyc : s.graph.Acyclic)
    (hkept : s.reduced.Kept s') (hedges : s'.edges = s.reduced.edges) : s.Least s' := by
  have hgraph : s'.graph = s.graph.reduction := by
    rw [Scope.graph, hkept.size_eq, hedges]
    rfl
  refine ⟨⟨hkept.kind, hkept.call, hkept.vertices, hkept.link, hkept.terminator⟩, ?_⟩
  rw [hgraph]
  exact least_reduction hb hacyc

theorem Scope.eq_reduced_of_reduce {name : String} (hb : s.graph.Bounded)
    (h : s.reduce name = .ok s') : s' = s.reduced :=
  Except.ok.inj (h.symm.trans (s.reduce_eq_ok hb (s.acyclic_of_reduce hb h) name))

/-! ## Trees -/

/-- Where the scopes can be reduced, their vertices are entered anew; of the reduced scopes this
keeps all edges. -/
theorem Tree.reduceWithMaps_of_reduce (hb : ∀ s ∈ t.toList, s.graph.Bounded)
    (h : t.reduce = .ok r) : ∃ r', t.reduceWithMaps = .ok (r', t.vertexMaps) ∧
      ∀ path, Option.Rel (fun s s' => s.Kept s' ∧ s'.edges = s.edges)
        (r.get? path) (r'.get? path) := by
  refine ⟨renumberFrom none r, ?_, fun path => ?_⟩
  · rw [Tree.reduceWithMaps, h]
    rfl
  · rw [Tree.get?_renumberFrom]
    have hreduced := Tree.get?_of_mapWithPathM h path
    cases hs : r.get? path with
    | none => exact .none
    | some s =>
      rw [hs] at hreduced
      generalize hs₀ : t.get? path = s? at hreduced
      cases hreduced with
      | @some s₀ _ hok =>
        have hbounded := hb s₀ (Tree.mem_toList_iff.2 ⟨path, hs₀⟩)
        obtain rfl := Scope.eq_reduced_of_reduce hbounded hok
        have hreduced : s₀.reduced.graph.Bounded := bounded_reduction hbounded
        exact .some ⟨Scope.kept_renumberBelow _ _, Scope.edges_renumberBelow hreduced _⟩

/-- Where no scope has a cycle, the tree is reduced, and every scope to its least edges. -/
theorem Tree.reduceWithMaps_least (hb : ∀ s ∈ t.toList, s.graph.Bounded)
    (hacyc : ∀ s ∈ t.toList, s.graph.Acyclic) :
    ∃ r, t.reduceWithMaps = .ok (r, t.vertexMaps) ∧
      ∀ path, Option.Rel Scope.Least (t.get? path) (r.get? path) := by
  have hok := Tree.reduce_eq_ok (t := t)
    (fun path s hs => hb s (Tree.mem_toList_iff.2 ⟨path, hs⟩))
    (fun path s hs => hacyc s (Tree.mem_toList_iff.2 ⟨path, hs⟩))
  obtain ⟨r, hread, hget⟩ := Tree.reduceWithMaps_of_reduce hb hok
  refine ⟨r, hread, fun path => ?_⟩
  have hkept := hget path
  rw [Tree.get?_mapWithPath] at hkept
  cases hs : t.get? path with
  | none =>
    rw [hs] at hkept
    generalize r.get? path = s'? at hkept
    cases hkept
    exact .none
  | some s =>
    rw [hs] at hkept
    generalize r.get? path = s'? at hkept
    cases hkept with
    | some hs' =>
      have hmem := Tree.mem_toList_iff.2 ⟨path, hs⟩
      exact .some (Scope.least_of_kept (hb s hmem) (hacyc s hmem) hs'.1 hs'.2)

/-- Four vertices, with an edge that comes twice, edges that lead back in the numbering, and
edges that longer paths replace.  The terminator is linked to what is no vertex. -/
def crossed : Scope where
  kind := .host
  call := none
  vertices := (List.range 4).map fun i => ⟨⟨.barrier, i⟩, "", none, none, some (.parent 7)⟩
  edges := [(3, 1), (0, 2), (0, 3), (3, 1), (0, 1), (1, 2)]
  terminator := some 2

theorem Tree.reduceWithMaps_least_crossed :
    ∃ r, Tree.reduceWithMaps (.node crossed [.node crossed []]) =
        .ok (r, Tree.vertexMaps (.node crossed [.node crossed []])) ∧
      ∀ path, Option.Rel Scope.Least (Tree.get? (.node crossed [.node crossed []]) path)
        (r.get? path) := by
  have hall : ∀ s ∈ (Tree.node crossed [.node crossed []]).toList, s = crossed := by
    intro s hs
    simpa [Tree.toList, Tree.entries, Tree.entriesFrom] using hs
  refine Tree.reduceWithMaps_least (fun s hs => ?_) (fun s hs => ?_)
  · rw [hall s hs]
    exact bounded_iff.2 (by decide)
  · rw [hall s hs]
    exact acyclic_of_height (fun v => [3, 1, 0, 2].getD v 0) (by decide)

-- the root keeps its link, that of the scope below it leads nowhere
example : (Tree.reduceWithMaps (.node crossed [.node crossed []])).toOption.map
    (fun r => r.1.toList.map fun s => (s.edges, s.link? 2)) =
      some [([(0, 3), (1, 2), (3, 1)], some (.parent 7)), ([(0, 3), (1, 2), (3, 1)], none)] := by
  cbv

end AsyncOrder
