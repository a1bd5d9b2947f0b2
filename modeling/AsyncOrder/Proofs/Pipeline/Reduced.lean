import AsyncOrder.Proofs.Rewriting.Tokens
import AsyncOrder.Proofs.Scope.Coverage

/-!
# Reduced trees

The reduced tree of a program that builds, scope by scope.  Every operation that waits on
something is a waiter of one of its scopes.
-/

namespace AsyncOrder

open Program AsyncOrder.Digraph

variable {p : Program} {t reduced : ScopeTree} {c : Context} {s : Scope} {o : OpId} {u v : Nat}
variable {path : Path}

/-! ## Waiters of reduced scopes -/

theorem mem_waiters :
    (v, o) ∈ p.waiters s ↔ s.op? v = some o ∧ p.isLive o = true ∧ (p.kind o).isAsync = true := by
  rw [waiters, List.mem_filterMap]
  constructor
  · rintro ⟨w, -, hw⟩
    split at hw
    · next z hz =>
      split at hw
      · next hcond =>
        obtain ⟨rfl, rfl⟩ := Prod.mk.inj (Option.some.inj hw)
        exact ⟨hz, Bool.and_eq_true _ _ ▸ hcond⟩
      · cases hw
    · cases hw
  · rintro ⟨ho, hlive, hasync⟩
    have hlt : v < s.size := by
      obtain ⟨x, hx, -⟩ := Option.bind_eq_some_iff.1 ho
      exact (List.getElem?_eq_some_iff.1 hx).1
    exact ⟨v, List.mem_range.2 hlt, by simp [ho, hlive, hasync]⟩

/-! ## The reduced tree -/

/-- The scope at `path` of the tree, resolved, stitched and reduced. -/
def Program.reducedAt (p : Program) (c : Context) (t : ScopeTree) (path : Path) (s : Scope) :
    Scope :=
  ((p.resolveScope c path s).stitched (callAt none path t)).reduced

/-- Vertices stay as they are, but for their links. -/
theorem map_vertices_reducedAt {α : Type} (f : Vertex → α)
    (hf : ∀ x : Vertex, f { x with link := none } = f x) :
    (p.reducedAt c t path s).vertices.map f = s.vertices.map f :=
  Scope.map_vertices_stitched (s := p.resolveScope c path s) f hf

theorem op?_reducedAt : (p.reducedAt c t path s).op? v = s.op? v := by
  have hmap : (p.reducedAt c t path s).vertices.map Vertex.op = s.vertices.map Vertex.op :=
    map_vertices_reducedAt Vertex.op fun _ => rfl
  have hat := congrArg (·[v]?) hmap
  simp only [List.getElem?_map] at hat
  rw [Scope.op?, Scope.op?]
  cases h : (p.reducedAt c t path s).vertices[v]? <;> cases h' : s.vertices[v]? <;>
    simp_all

section

variable (hs : (p.resolveScope c path s).Ordered)
include hs

theorem edge_reducedAt : (p.reducedAt c t path s).graph.Edge u v ↔
    (p.resolveScope c path s).close.graph.Edge u v ∧
      ¬ (p.resolveScope c path s).close.graph.Implied u v := by
  have hedge : (p.reducedAt c t path s).graph.Edge u v ↔
      ((p.resolveScope c path s).stitched (callAt none path t)).graph.reduction.Edge u v := Iff.rfl
  rw [hedge, Scope.graph_stitched, edge_reduction hs.bounded_close]

theorem path_reducedAt : (p.reducedAt c t path s).graph.Path u v ↔
    (p.resolveScope c path s).close.graph.Path u v := by
  have hpath : (p.reducedAt c t path s).graph.Path u v ↔
      ((p.resolveScope c path s).stitched (callAt none path t)).graph.reduction.Path u v := Iff.rfl
  rw [hpath, Scope.graph_stitched, path_reduction hs.bounded_close hs.forward_close.acyclic]

theorem bounded_reducedAt : (p.reducedAt c t path s).graph.Bounded := by
  have hbounded : ((p.resolveScope c path s).stitched (callAt none path t)).graph.reduction.Bounded
      := by
    rw [Scope.graph_stitched]
    exact bounded_reduction hs.bounded_close
  exact hbounded

end

/-- The reduced tree of a program whose scopes are laid, scope by scope. -/
theorem Laid.reduced_tree (hp : p.WellFormed)
    (ht : Laid p c [] none (p.funcs.map (·.body)) t) :
    (p.resolve c t).tree.stitch.failure = none ∧
      ∃ reduced, (p.resolve c t).tree.stitch.scopes.reduce = .ok reduced ∧
        ∀ path, reduced.get? path = (t.get? path).map (p.reducedAt c t path) := by
  obtain ⟨hnone, reduced, hreduce, hget, -⟩ := (ht.regular_resolve hp).reduce_stitch
  refine ⟨hnone, reduced, hreduce, fun path => ?_⟩
  have hcall : callAt none path (p.resolve c t).tree = callAt none path t :=
    callAt_mapWithPath fun _ _ => rfl
  rw [hget, stitchedAt, hcall, resolve, Tree.get?_mapWithPath, Option.map_map, Option.map_map]
  rfl

/-- All operations that wait do so in the reduced tree. -/
theorem Laid.waits (hp : p.WellFormed) (ht : Laid p c [] none (p.funcs.map (·.body)) t)
    (hget : ∀ path, reduced.get? path = (t.get? path).map (p.reducedAt c t path)) :
    p.Waits reduced := by
  intro o hdeps
  have holt : o.index < p.ops.size := by
    by_contra hlt
    exact hdeps (deps_of_size_le (Nat.le_of_not_lt hlt))
  have hasync : (p.kind o).isAsync = true := by
    by_contra hnot
    exact hdeps (List.map_eq_nil_iff.1 ((hp.laidOut o holt).1 (by simpa using hnot)))
  obtain ⟨path, s, v, hs, hv⟩ := ht.exists_vertex hp holt hasync
  refine ⟨p.reducedAt c t path s,
    Tree.mem_toList_iff.2 ⟨path, by rw [hget, hs]; rfl⟩, v, mem_waiters.2 ⟨?_, ?_, hasync⟩⟩
  · exact op?_reducedAt.trans hv
  · rw [isLive, hp.linked.live o holt]
    rfl

end AsyncOrder
