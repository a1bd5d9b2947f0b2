import AsyncOrder.Proofs.Graph.Sorting
import AsyncOrder.Proofs.Scope.Stitching
import AsyncOrder.Session.Run

/-!
# Reported cycles

Whatever edges the scopes of a tree have, a scope is refused just when it has a cycle, with a
vertex that lies on one, and the tree for the first scope that is refused:

    (∃ f, s.reduce name = .error f) ↔ ∃ v, s.graph.Path v v
    t.reduceWithMaps = .error f → f names the first scope of t with a cycle, and a vertex on it

The vertex is the one that a topological sort by two searches reports (`Digraph.Sorts`).
-/

namespace AsyncOrder

open Relation AsyncOrder.Digraph

variable {s : Scope} {t : ScopeTree} {path : Path} {name : String} {f : Failure}

/-! ## One scope -/

/-- `f` names a vertex on a cycle of the scope, the one that the sort reports. -/
def Scope.Names (s : Scope) (name : String) (f : Failure) : Prop :=
  ∃ i v, s.vertices[i]? = some v ∧ f = .cyclicPrecedence name v.key ∧
    s.graph.Sorts (.error i) ∧ s.graph.Path i i

theorem Scope.names_of_reduce (hb : s.graph.Bounded) (h : s.reduce name = .error f) :
    s.Names name f := by
  rw [Scope.reduce] at h
  split at h
  · next v hv =>
    obtain ⟨i, hi, hv⟩ := Option.bind_eq_some_iff.1 hv
    have hsorted : s.graph.sorted = .error i := by rw [Digraph.sorted, hi]
    exact ⟨i, v, hv, (Except.error.inj h).symm, (sorts_iff hb).2 hsorted.symm,
      path_of_cycleVertex? hb hi⟩
  · cases h

/-- A scope is refused just when it has a cycle. -/
theorem Scope.exists_reduce_eq_error_iff (hb : s.graph.Bounded) :
    (∃ f, s.reduce name = .error f) ↔ ∃ v, s.graph.Path v v := by
  constructor
  · rintro ⟨f, hf⟩
    obtain ⟨i, -, -, -, -, hi⟩ := Scope.names_of_reduce hb hf
    exact ⟨i, hi⟩
  · rintro ⟨v, hv⟩
    obtain ⟨i, hi⟩ := Option.ne_none_iff_exists'.1 fun hnone =>
      (cycleVertex?_eq_none_iff hb).1 hnone v hv
    have hlt : i < s.vertices.length := ((path_of_cycleVertex? hb hi).bounded hb).1
    refine ⟨.cyclicPrecedence name s.vertices[i].key, ?_⟩
    rw [Scope.reduce, hi, Option.bind_some, List.getElem?_eq_getElem hlt]

theorem Scope.acyclic_of_reduce (hb : s.graph.Bounded) {s' : Scope} (h : s.reduce name = .ok s') :
    s.graph.Acyclic := by
  intro v hv
  obtain ⟨f, hf⟩ := (Scope.exists_reduce_eq_error_iff hb).2 ⟨v, hv⟩
  rw [h] at hf
  cases hf

/-- Edges that are added count as those that were there. -/
theorem Scope.path_addEdges_iff {es : List (Nat × Nat)} {u v : Nat} :
    (s.addEdges es).graph.Path u v ↔
      TransGen (fun a b => s.graph.Edge a b ∨ (a, b) ∈ es) u v := by
  have hedge : (s.addEdges es).graph.Edge = fun a b => s.graph.Edge a b ∨ (a, b) ∈ es := by
    funext a b
    exact propext edge_addEdges
  rw [Digraph.Path, hedge]

theorem Scope.bounded_addEdges {es : List (Nat × Nat)} (hb : s.graph.Bounded)
    (hes : ∀ e ∈ es, e.1 < s.size ∧ e.2 < s.size) : (s.addEdges es).graph.Bounded := by
  intro u v huv
  rcases edge_addEdges.1 huv with h | h
  · exact hb u v h
  · exact hes (u, v) h

/-! ## Trees -/

theorem Tree.reduceWithMaps_eq_error_iff : t.reduceWithMaps = .error f ↔ t.reduce = .error f := by
  rw [Tree.reduceWithMaps]
  constructor
  · intro h
    rcases error_of_bind_eq_error h with h | ⟨_, -, h⟩
    · exact h
    · cases h
  · intro h
    rw [h]
    rfl

/-- The first scope with a cycle is named. -/
theorem Tree.names_first (hb : ∀ s ∈ t.toList, s.graph.Bounded)
    (h : t.reduceWithMaps = .error f) : ∃ before path s after,
      t.entries = before ++ (path, s) :: after ∧ (∀ e ∈ before, e.2.graph.Acyclic) ∧
        s.Names (s.kind.nameAt path) f := by
  obtain ⟨before, path, s, after, hentries, hok, hfail⟩ :=
    Tree.exists_of_mapWithPathM_eq_error (Tree.reduceWithMaps_eq_error_iff.1 h)
  have hbounded : ∀ e ∈ t.entries, e.2.graph.Bounded := fun e he =>
    hb e.2 (List.mem_map_of_mem he)
  rw [hentries] at hbounded
  refine ⟨before, path, s, after, hentries, fun e he => ?_, ?_⟩
  · obtain ⟨s', hs'⟩ := hok e he
    exact Scope.acyclic_of_reduce (hbounded e (List.mem_append_left _ he)) hs'
  · exact Scope.names_of_reduce (hbounded (path, s) (by simp)) hfail

theorem Tree.exists_reduceWithMaps_eq_error_iff (hb : ∀ s ∈ t.toList, s.graph.Bounded) :
    (∃ f, t.reduceWithMaps = .error f) ↔ ∃ s ∈ t.toList, ∃ v, s.graph.Path v v := by
  constructor
  · rintro ⟨f, hf⟩
    obtain ⟨before, path, s, after, hentries, -, i, -, -, -, -, hi⟩ := Tree.names_first hb hf
    refine ⟨s, List.mem_map.2 ⟨(path, s), ?_, rfl⟩, i, hi⟩
    rw [hentries]
    simp
  · rintro ⟨s, hs, v, hv⟩
    simp only [Tree.reduceWithMaps_eq_error_iff]
    cases h : t.reduce with
    | error f => exact ⟨f, rfl⟩
    | ok r =>
      obtain ⟨x, hx, rfl⟩ := List.mem_map.1 hs
      obtain ⟨s', hs'⟩ := Tree.ok_of_mapWithPathM h hx
      exact absurd hv (Scope.acyclic_of_reduce (hb x.2 hs) hs' v)

/-- The graphs of a session stay as they are, and a session that fails does altogether. -/
theorem Session.reduce_keeps {session : Session} (ht : session.graphs = some t) :
    session.reduce.session.graphs = some t ∧
      ∀ f, t.reduceWithMaps = .error f → session.reduce = ⟨session, some f⟩ := by
  simp only [Session.reduce, ht]
  cases t.reduceWithMaps with
  | error f =>
    refine ⟨ht, fun f' hf => ?_⟩
    rw [← Except.error.inj hf]
    rfl
  | ok r => exact ⟨rfl, fun f hf => nomatch hf⟩

/-- Cycles are reported just where they are, whatever edges scopes have or are given: a scope is
refused for a vertex on a cycle, a tree for the first scope that is refused, and nothing changes. -/
theorem cycles_reported (t : ScopeTree) (hb : ∀ s ∈ t.toList, s.graph.Bounded) :
    (∀ s ∈ t.toList, ∀ es : List (Nat × Nat), (∀ e ∈ es, e.1 < s.size ∧ e.2 < s.size) →
      ∀ name, ((∃ f, (s.addEdges es).reduce name = .error f) ↔
          ∃ v, TransGen (fun a b => s.graph.Edge a b ∨ (a, b) ∈ es) v v) ∧
        ∀ f, (s.addEdges es).reduce name = .error f → (s.addEdges es).Names name f) ∧
    ((∃ f, t.reduceWithMaps = .error f) ↔ ∃ s ∈ t.toList, ∃ v, s.graph.Path v v) ∧
    (∀ f, t.reduceWithMaps = .error f → ∃ before path s after,
      t.entries = before ++ (path, s) :: after ∧ (∀ e ∈ before, e.2.graph.Acyclic) ∧
        s.Names (s.kind.nameAt path) f) ∧
    ∀ session : Session, session.graphs = some t → session.reduce.session.graphs = some t ∧
      ∀ f, t.reduceWithMaps = .error f → session.reduce = ⟨session, some f⟩ := by
  refine ⟨fun s hs es hes name => ?_, Tree.exists_reduceWithMaps_eq_error_iff hb,
    fun f hf => Tree.names_first hb hf, fun session ht => Session.reduce_keeps ht⟩
  have hbounded := Scope.bounded_addEdges (hb s hs) hes
  refine ⟨?_, fun f hf => Scope.names_of_reduce hbounded hf⟩
  simp only [Scope.exists_reduce_eq_error_iff hbounded, Scope.path_addEdges_iff]

/-- A scope of `n` barriers with the edges `es`. -/
def barriers (kind : ScopeKind) (n : Nat) (es : List (Nat × Nat)) : Scope where
  kind := kind
  call := none
  vertices := (List.range n).map fun i => ⟨⟨.barrier, i⟩, "", none, none, none⟩
  edges := es
  terminator := none

/-- Two scopes that are in order, and two with cycles: in the first of these a detour leads into a
cycle with a chord, and a second cycle stands apart. -/
def tangledTree : ScopeTree :=
  .node (barriers .host 4 [(3, 1), (0, 3), (0, 3)])
    [.node (barriers (.body .launch) 3 [(2, 0), (2, 1)])
      [.node (barriers (.body .segment) 8
        [(0, 1), (1, 2), (2, 3), (3, 4), (4, 2), (4, 1), (5, 6), (6, 7), (7, 5), (6, 5)]) []],
    .node (barriers (.body .launch) 2 [(1, 1)]) []]

theorem cycles_reported_tangledTree : (∀ s ∈ tangledTree.toList, s.graph.Bounded) ∧
    ∃ before path s after, tangledTree.entries = before ++ (path, s) :: after ∧
      (∀ e ∈ before, e.2.graph.Acyclic) ∧
      s.Names (s.kind.nameAt path) (.cyclicPrecedence "segment_1.1" ⟨.barrier, 7⟩) := by
  have hb : ∀ s ∈ tangledTree.toList, s.graph.Bounded := by
    have hall : tangledTree.toList.all (fun s =>
        s.graph.edges.all fun e => e.1 < s.graph.size && e.2 < s.graph.size) = true := by
      decide +kernel
    intro s hs
    refine bounded_iff.2 fun e he => ?_
    simpa using List.all_eq_true.1 (List.all_eq_true.1 hall s hs) e he
  have hf : tangledTree.reduceWithMaps =
      .error (.cyclicPrecedence "segment_1.1" ⟨.barrier, 7⟩) := by rfl
  exact ⟨hb, (cycles_reported tangledTree hb).2.2.1 _ hf⟩

end AsyncOrder
