import AsyncOrder.Proofs.Scope.Closing
import AsyncOrder.Proofs.Tree

/-!
# Stitched and reduced trees

Stitching closes every scope and sets links; links change neither vertices nor edges otherwise
(`unlinked`).  Where every scope has as many children as calls, it does not fail:

    (t.stitch).scopes.get? path = stitchedAt none path t

Where moreover edges lead forwards everywhere, reducing does not fail, and the two together put
`s.close.graph.reduction.edges` in the place of the edges of every scope `s`.
-/

namespace AsyncOrder

namespace Scope

open AsyncOrder.Digraph

variable {s s' : Scope} {v : Nat} {link : Link} {call : Option Nat}

/-! ## Links -/

/-- The scope apart from its links. -/
def unlinked (s : Scope) : Scope :=
  { s with vertices := s.vertices.map fun x => { x with link := none } }

@[simp]
theorem unlinked_setLink : (s.setLink v link).unlinked = s.unlinked := by
  have hmap : ∀ (l : List Vertex), (l.modify v fun x => { x with link := some link }).map
      (fun x => { x with link := none }) = l.map fun x => { x with link := none } := by
    intro l
    refine List.ext_getElem? fun i => ?_
    rw [List.getElem?_map, List.getElem?_modify, List.getElem?_map]
    cases l[i]? with
    | none => rfl
    | some x =>
      simp only [Option.map_eq_map, Option.map_some]
      split <;> rfl
  rw [unlinked, setLink, hmap]
  rfl

@[simp]
theorem unlinked_linkTerminator : (s.linkTerminator call).unlinked = s.unlinked := by
  unfold linkTerminator
  split
  · exact unlinked_setLink
  · rfl

@[simp]
theorem unlinked_linkCalls : s.linkCalls.unlinked = s.unlinked := by
  have hsame : ∀ (l : List (Nat × Nat)) (s : Scope),
      (l.foldl (fun s e => s.setLink e.1 (.child e.2)) s).unlinked = s.unlinked := by
    intro l
    induction l with
    | nil => intro s; rfl
    | cons e l ih =>
      intro s
      rw [List.foldl_cons, ih, unlinked_setLink]
  exact hsame _ s

@[simp]
theorem size_unlinked : s.unlinked.size = s.size := by
  rw [size, size, unlinked, List.length_map]

@[simp]
theorem graph_unlinked : s.unlinked.graph = s.graph := by
  rw [graph, graph, size_unlinked]
  rfl

theorem vertexKind?_unlinked (v : Nat) : s.unlinked.vertexKind? v = s.vertexKind? v := by
  rw [vertexKind?, vertexKind?, unlinked, List.getElem?_map, Option.map_map]
  rfl

@[simp]
theorem calls_unlinked : s.unlinked.calls = s.calls := by
  rw [calls, calls, indices, indices, size_unlinked]
  exact List.filter_congr fun v _ => by rw [vertexKind?_unlinked]

theorem unlinked_close : s.close.unlinked = s.unlinked.close := by
  have hend : s.closeEnd.unlinked = s.unlinked.closeEnd := by
    rw [closeEnd, closeEnd, addEdges, addEdges, endEdges, endEdges, indices, indices,
      graph_unlinked, size_unlinked]
    rfl
  have hclose : ∀ s : Scope, (s.addEdges s.startEdges).unlinked =
      s.unlinked.addEdges s.unlinked.startEdges := by
    intro s
    rw [addEdges, addEdges, startEdges, startEdges, indices, indices, graph_unlinked,
      size_unlinked]
    rfl
  rw [close, hclose, hend]
  rfl

theorem Ordered.of_unlinked (hs : s.Ordered) (h : s'.unlinked = s.unlinked) : s'.Ordered := by
  have hgraph : s'.graph = s.graph := by rw [← graph_unlinked, h, graph_unlinked]
  have hsize : s'.size = s.size := by rw [← size_unlinked, h, size_unlinked]
  have hterm : s'.unlinked.terminator = s.unlinked.terminator := by rw [h]
  exact ⟨hgraph ▸ hs.bounded, hgraph ▸ hs.forward, fun t ht => hsize ▸ hs.last t (hterm ▸ ht)⟩

theorem calls_linked : (s.linkTerminator call).close.calls = s.calls := by
  rw [← calls_unlinked, unlinked_close, unlinked_linkTerminator, ← unlinked_close, calls_unlinked]
  rfl

theorem closeStats_linkTerminator : (s.linkTerminator call).closeStats = s.closeStats := by
  have hunlinked : ∀ s : Scope, s.unlinked.closeStats = s.closeStats := by
    intro s
    have hend : s.unlinked.endEdges = s.endEdges := by
      rw [endEdges, endEdges, indices, indices, graph_unlinked, size_unlinked]
      rfl
    have hstart : s.unlinked.closeEnd.startEdges = s.closeEnd.startEdges := by
      rw [startEdges, startEdges, indices, indices, closeEnd, closeEnd, size_addEdges,
        size_addEdges, graph_addEdges, graph_addEdges, graph_unlinked, size_unlinked, hend]
    rw [closeStats, closeStats, hend, hstart]
  rw [← hunlinked, unlinked_linkTerminator, hunlinked]

/-- The scope as stitched, the body of the vertex `call` of the scope above. -/
def stitched (s : Scope) (call : Option Nat) : Scope := (s.linkTerminator call).close.linkCalls

theorem unlinked_stitched : (s.stitched call).unlinked = s.close.unlinked := by
  rw [stitched, unlinked_linkCalls, unlinked_close, unlinked_linkTerminator, ← unlinked_close]

/-- What vertices are made of, but for their links, stays. -/
theorem map_vertices_stitched {α : Type} (f : Vertex → α)
    (hf : ∀ x : Vertex, f { x with link := none } = f x) :
    (s.stitched call).vertices.map f = s.vertices.map f := by
  have hmap : ∀ s : Scope, s.unlinked.vertices.map f = s.vertices.map f := by
    intro s
    rw [unlinked, List.map_map]
    exact List.map_congr_left fun x _ => hf x
  rw [← hmap, unlinked_stitched, hmap]
  rfl

theorem graph_stitched : (s.stitched call).graph = s.close.graph := by
  rw [← graph_unlinked, unlinked_stitched, graph_unlinked]

theorem Ordered.stitched (hs : s.Ordered) : (s.stitched call).Ordered :=
  hs.close.of_unlinked unlinked_stitched

/-- The scope with its edges reduced. -/
def reduced (s : Scope) : Scope := { s with edges := s.graph.reduction.edges }

/-! ## What links depend on -/

theorem plain_setLink : (s.setLink v link).plain = s.plain.setLink v link := rfl

theorem plain_linkTerminator : (s.linkTerminator call).plain = s.plain.linkTerminator call := by
  have hterm : s.plain.terminator = s.terminator := rfl
  unfold linkTerminator
  rw [hterm]
  split <;> rfl

theorem plain_linkCalls : s.linkCalls.plain = s.plain.linkCalls :=
  (List.foldl_hom plain fun _ _ => plain_setLink).symm

/-- Links do not depend on edges. -/
theorem plain_stitched_congr (h : s.plain = s'.plain) :
    (s.stitched call).plain = (s'.stitched call).plain := by
  rw [stitched, stitched, plain_linkCalls, plain_close, plain_linkTerminator, h,
    ← plain_linkTerminator, ← plain_close, ← plain_linkCalls]

/-- A reduced scope is told by its vertices and the edges of the closed scope when reduced. -/
theorem reduced_stitched_of_edges (h : s.plain = s'.plain)
    (hedges : s.close.graph.reduction.edges = s'.close.graph.reduction.edges) :
    (s.stitched call).reduced = (s'.stitched call).reduced := by
  have hreduced : ∀ s : Scope, s.reduced = { s.plain with edges := s.graph.reduction.edges } :=
    fun _ => rfl
  rw [hreduced, hreduced, plain_stitched_congr h, graph_stitched, graph_stitched, hedges]

end Scope

/-! ## Trees -/

variable {t u : ScopeTree} {path base : Path} {call : Option Nat} {s : Scope}
variable {ts : List ScopeTree}

/-- Every scope has as many children as calls. -/
def Matched (t : ScopeTree) : Prop :=
  ∀ path s ts, t.at? path = some (.node s ts) → s.calls.length = ts.length

/-- The vertex whose body is the scope at `path`, where the tree is the body of `call`. -/
def callAt (call : Option Nat) : Path → ScopeTree → Option Nat
  | [], _ => call
  | i :: path, .node s ts => ts[i]?.bind (callAt s.calls[i]? path)

/-- The scope at `path` as stitched, where the tree is the body of `call`. -/
def stitchedAt (call : Option Nat) (path : Path) (t : ScopeTree) : Option Scope :=
  (t.get? path).map fun s => s.stitched (callAt call path t)

theorem stitchedAt_cons {i : Nat} : stitchedAt call (i :: path) (.node s ts) =
    ts[i]?.bind (stitchedAt s.calls[i]? path) := by
  rw [stitchedAt, Tree.get?_cons, Tree.getFrom?, callAt]
  cases ts[i]? <;> rfl

theorem Matched.child (ht : Matched (.node s ts)) (hu : u ∈ ts) : Matched u := by
  obtain ⟨i, hi⟩ := List.mem_iff_getElem?.1 hu
  intro path s' us h
  refine ht (i :: path) s' us ?_
  rw [Tree.at?, Tree.children, hi, Option.bind_some, h]

/-- Stitching fails nowhere and puts every scope, closed and linked, in its place. -/
theorem stitchFrom_of_matched : ∀ {t : ScopeTree} (base : Path) (call : Option Nat), Matched t →
    (stitchFrom base call t).failure = none ∧
      ∀ path, (stitchFrom base call t).scopes.get? path = stitchedAt call path t
  | .node s ts, base, call, ht => by
    have hroot : s.calls.length = ts.length := ht [] s ts rfl
    have hbelow : ∀ (n : Nat) (us : List ScopeTree) (calls : List Nat), (∀ u ∈ us, u ∈ ts) →
        (stitchChildren base calls n us).failure = none ∧ ∀ i path,
          Tree.getFrom? (stitchChildren base calls n us).scopes i path =
            us[i]?.bind (stitchedAt calls[n + i]? path) := by
      intro n us calls hus
      induction us generalizing n with
      | nil => exact ⟨rfl, fun i path => rfl⟩
      | cons u us ih =>
        have hmem := hus u List.mem_cons_self
        obtain ⟨hfirst, hget⟩ := stitchFrom_of_matched (base ++ [n]) calls[n]?
          (ht.child hmem)
        obtain ⟨hrest, hgets⟩ := ih (n + 1) fun v hv => hus v (List.mem_cons_of_mem _ hv)
        rw [stitchChildren]
        simp only [hfirst]
        refine ⟨hrest, fun i path => ?_⟩
        cases i with
        | zero => exact hget path
        | succ i =>
          rw [Tree.getFrom?_cons_succ, hgets, List.getElem?_cons_succ, Nat.add_assoc,
            Nat.add_comm 1]
    obtain ⟨hnone, hgets⟩ := hbelow 0 ts (s.linkTerminator call).close.calls fun u hu => hu
    have hmatch : (s.linkTerminator call).close.mismatch? base ts.length = none := by
      simp [Scope.mismatch?, Scope.calls_linked, hroot]
    rw [stitchFrom]
    simp only [hmatch]
    refine ⟨hnone, fun path => ?_⟩
    cases path with
    | nil => rfl
    | cons i path =>
      rw [Tree.get?_cons, hgets, stitchedAt_cons, Scope.calls_linked, Nat.zero_add]
termination_by t => sizeOf t
decreasing_by
  have := List.sizeOf_lt_of_mem hmem
  simp only [Tree.node.sizeOf_spec]
  omega

/-- Calls are told by the vertices alone. -/
theorem callAt_mapWithPath {f : Path → Scope → Scope} (hf : ∀ path s, (f path s).calls = s.calls) :
    callAt call path (t.mapWithPath f base) = callAt call path t := by
  induction path generalizing t base call with
  | nil => rfl
  | cons i path ih =>
    obtain ⟨s, ts⟩ := t
    rw [Tree.mapWithPath, callAt, callAt, Tree.getElem?_mapAllWithPath, hf]
    cases ts[i]? with
    | none => rfl
    | some u => exact ih

/-! ## Reduced trees -/

/-- Every scope of the tree is ordered, and its calls have children. -/
structure Regular (t : ScopeTree) : Prop where
  matched : Matched t
  ordered : ∀ path s, t.get? path = some s → s.Ordered

/-- Where no scope has a cycle, reducing the tree does not fail. -/
theorem Tree.reduce_eq_ok (hb : ∀ path s, t.get? path = some s → s.graph.Bounded)
    (hacyc : ∀ path s, t.get? path = some s → s.graph.Acyclic) :
    t.reduce = .ok (t.mapWithPath (fun _ s => s.reduced) []) :=
  Tree.mapWithPathM_eq_ok fun path s hs => s.reduce_eq_ok (hb path s hs) (hacyc path s hs) _

/-- Stitching and reducing a regular tree does not fail. -/
theorem Regular.reduce_stitch (ht : Regular t) :
    t.stitch.failure = none ∧ ∃ reduced, t.stitch.scopes.reduce = .ok reduced ∧
      (∀ path, reduced.get? path = (stitchedAt none path t).map Scope.reduced) ∧
      ∀ path s, t.stitch.scopes.get? path = some s →
        s.Ordered ∧ reduced.get? path = some s.reduced := by
  obtain ⟨hnone, hget⟩ := stitchFrom_of_matched [] none ht.matched
  have hordered : ∀ path s, t.stitch.scopes.get? path = some s → s.Ordered := by
    intro path s hs
    obtain ⟨s', hs', rfl⟩ := Option.map_eq_some_iff.1 ((hget path).symm.trans hs)
    exact (ht.ordered path s' hs').stitched
  have hreduce : t.stitch.scopes.reduce =
      .ok (t.stitch.scopes.mapWithPath (fun _ (s : Scope) => s.reduced) []) :=
    Tree.reduce_eq_ok (fun path s hs => (hordered path s hs).bounded) fun path s hs =>
      (hordered path s hs).forward.acyclic
  refine ⟨hnone, _, hreduce, fun path => ?_, fun path s hs => ⟨hordered path s hs, ?_⟩⟩
  · rw [Tree.get?_mapWithPath]
    exact congrArg _ (hget path)
  · rw [Tree.get?_mapWithPath, hs]
    rfl

end AsyncOrder
