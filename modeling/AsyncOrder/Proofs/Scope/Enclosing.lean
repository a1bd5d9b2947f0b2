import AsyncOrder.Proofs.Scope.Recording
import AsyncOrder.Proofs.Scope.Resolving

/-!
# Enclosed scopes

In a stitched scope every vertex lies between the start and the terminator (`Enclosed`), and
stitching does nothing else to it than set links and add edges at these two (`Closes`):

    v < s.size                         → start ⟶* v
    s.terminator = some t, v < s.size  → v ⟶* t
    u ≠ start, s.terminator ≠ some v   → ((s'.graph.Path u v) ↔ (s.graph.Path u v))

Going from degrees to paths takes that edges lead forwards: from a vertex one comes back along
predecessors to one that has none, and that is the start.  For the same reason nothing is left
to do the second time.
-/

namespace AsyncOrder

open AsyncOrder.Digraph Program Relation

variable {p : Program} {c : Context} {t : ScopeTree} {path base : Path} {call : Option Nat}

namespace Scope

variable {s s' : Scope} {u v : Nat}

/-- Every vertex is between the start and the terminator; only the outermost scope may lack one. -/
structure Enclosed (s : Scope) : Prop where
  from_start : ∀ v, v < s.size → ReflTransGen s.graph.Edge start v
  terminated : s.kind ≠ .host → s.terminator ≠ none
  to_terminator : ∀ t, s.terminator = some t →
    t < s.size ∧ ∀ v, v < s.size → ReflTransGen s.graph.Edge v t

/-- `s'` is `s` but for its links and for edges from the start and to the terminator. -/
structure Closes (s s' : Scope) : Prop where
  same : s'.unlinked.plain = s.unlinked.plain
  kept : ∀ e ∈ s.edges, e ∈ s'.edges
  added : ∀ e ∈ s'.edges, e ∈ s.edges ∨ e.1 = start ∨ s.terminator = some e.2
  path : ∀ u v, u ≠ start → s.terminator ≠ some v → (s'.graph.Path u v ↔ s.graph.Path u v)

/-! ## One scope -/

section

variable (hs : s.Ordered)
include hs

/-- Between vertices other than the start and the terminator closing makes no path. -/
theorem Ordered.path_of_path_close (hu : u ≠ start) (hv : s.terminator ≠ some v)
    (h : s.close.graph.Path u v) : s.graph.Path u v := by
  have hedge : ∀ {a b}, s.close.graph.Edge a b → a ≠ start → s.terminator ≠ some b →
      s.graph.Edge a b := by
    intro a b hab ha hb
    rcases edge_close.1 hab with hab | hab | hab
    · exact hab
    · exact absurd (mem_endEdges.1 hab).1 hb
    · exact absurd (mem_startEdges.1 hab).1 ha
  -- the path comes neither back to the start nor on from the terminator
  induction h with
  | single h => exact .single (hedge h hu hv)
  | @tail b v hub hbv ih =>
    have hlt := Path.lt hs.forward_close hub
    have hb : b ≠ start := Nat.ne_of_gt (Nat.lt_of_le_of_lt (Nat.zero_le u) hlt)
    have hterm : s.terminator ≠ some b := by
      intro hb
      have := hs.last b hb
      have := hs.forward_close b v hbv
      have : v < s.size := (hs.bounded_close b v hbv).2
      omega
    exact (ih hterm).tail (hedge hbv hb hv)

theorem Ordered.closes_close : s.Closes s.close where
  same := rfl
  kept e he := edge_close_of_edge (u := e.1) (v := e.2) he
  added e he := by
    rcases edge_close.1 (show s.close.graph.Edge e.1 e.2 from he) with h | h | h
    · exact Or.inl h
    · exact Or.inr (Or.inr (mem_endEdges.1 h).1)
    · exact Or.inr (Or.inl (mem_startEdges.1 h).1)
  path _ _ hu hv := ⟨hs.path_of_path_close hu hv, path_close_of_path⟩

theorem Ordered.enclosed_close (hended : s.kind ≠ .host → s.terminator ≠ none) :
    s.close.Enclosed where
  from_start v hv := by
    by_cases h : v = start
    · exact h ▸ .refl
    · exact (hs.start_path hv h).to_reflTransGen
  terminated := hended
  to_terminator t ht := by
    have hlast := hs.last t ht
    have hlt : t < s.size := by omega
    refine ⟨hlt, fun v hv => ?_⟩
    by_cases h : v = t
    · exact h ▸ .refl
    · by_cases hstart : v = start
      · exact hstart ▸ (hs.start_path hlt fun h' => h (hstart.trans h'.symm)).to_reflTransGen
      · exact (hs.path_terminator ht hv hstart h).to_reflTransGen

omit hs in
theorem Closes.of_unlinked {s'' : Scope} (h : s.Closes s') (hsame : s''.unlinked = s'.unlinked) :
    s.Closes s'' := by
  have hgraph : s''.graph = s'.graph := by rw [← graph_unlinked, hsame, graph_unlinked]
  have hedges : s''.edges = s'.edges := congrArg Digraph.edges hgraph
  exact ⟨by rw [hsame, h.same], hedges ▸ h.kept, hedges ▸ h.added, hgraph ▸ h.path⟩

omit hs in
theorem Enclosed.of_unlinked (h : s.Enclosed) (hsame : s'.unlinked = s.unlinked) : s'.Enclosed := by
  have hgraph : s'.graph = s.graph := by rw [← graph_unlinked, hsame, graph_unlinked]
  have hsize : s'.size = s.size := congrArg Digraph.size hgraph
  have hkind : s'.unlinked.kind = s.unlinked.kind := congrArg Scope.kind hsame
  have hterm : s'.unlinked.terminator = s.unlinked.terminator := congrArg Scope.terminator hsame
  refine ⟨?_, ?_, ?_⟩
  · rw [hsize, hgraph]
    exact h.from_start
  · exact hterm ▸ hkind ▸ h.terminated
  · rw [hsize, hgraph]
    exact fun t ht => h.to_terminator t (hterm ▸ ht)

/-- Reducing a scope leaves its vertices where they are. -/
theorem Enclosed.reduced (h : s.Enclosed) : s.reduced.Enclosed := by
  have hpath : ∀ {u v}, ReflTransGen s.graph.Edge u v → ReflTransGen s.reduced.graph.Edge u v := by
    intro u v huv
    rcases reflTransGen_iff_eq_or_transGen.1 huv with rfl | huv
    · exact .refl
    · exact ((path_reduction hs.bounded hs.forward.acyclic).2 huv).to_reflTransGen
  exact ⟨fun v hv => hpath (h.from_start v hv), h.terminated, fun t ht =>
    ⟨(h.to_terminator t ht).1, fun v hv => hpath ((h.to_terminator t ht).2 v hv)⟩⟩

end

/-! ## The second time -/

theorem endEdges_eq_nil (h : s.Enclosed) : s.endEdges = [] := by
  refine List.eq_nil_iff_forall_not_mem.2 fun ⟨u, v⟩ he => ?_
  obtain ⟨hterm, hu, -, hne, hsink⟩ := mem_endEdges.1 he
  rcases ((h.to_terminator v hterm).2 u hu).cases_head with h | ⟨w, huw, -⟩
  · exact hne h
  · exact hsink w huw

theorem startEdges_eq_nil (h : s.Enclosed) : s.startEdges = [] := by
  refine List.eq_nil_iff_forall_not_mem.2 fun ⟨u, v⟩ he => ?_
  obtain ⟨-, hv, hne, hsource⟩ := mem_startEdges.1 he
  rcases (h.from_start v hv).cases_tail with h | ⟨w, -, hwv⟩
  · exact hne h
  · exact hsource w hwv

/-- An enclosed scope is closed. -/
theorem Enclosed.close_eq (h : s.Enclosed) : s.close = s ∧ s.closeStats = .zero := by
  have hend : s.closeEnd = s := by rw [closeEnd, endEdges_eq_nil h, addEdges_nil]
  constructor
  · rw [close, hend, startEdges_eq_nil h, addEdges_nil]
  · rw [closeStats, hend, startEdges_eq_nil h, endEdges_eq_nil h]
    rfl

theorem edges_stitched (h : s.Enclosed) : (s.stitched call).edges = s.edges := by
  have hunlinked : (s.stitched call).unlinked = s.close.unlinked := unlinked_stitched
  rw [h.close_eq.1] at hunlinked
  have hedges := congrArg Scope.edges hunlinked
  exact hedges

end Scope

/-! ## Trees -/

/-- Whether calls and children match in number is told by which paths lead to scopes. -/
theorem matched_iff : Matched t ↔ ∀ path s, t.get? path = some s →
    ∀ i, (t.get? (path ++ [i])).isSome = true ↔ i < s.calls.length := by
  have hchild : ∀ {path s ts i}, t.at? path = some (.node s ts) →
      ((t.get? (path ++ [i])).isSome = true ↔ i < ts.length) := by
    intro path s ts i hat
    rw [Tree.get?_child hat, Option.isSome_map, isSome_getElem?]
  constructor
  · intro h path s hs i
    obtain ⟨⟨s, ts⟩, hat, rfl⟩ := Option.map_eq_some_iff.1 hs
    rw [hchild hat, ← h path s ts hat]
    rfl
  · intro h path s ts hat
    have hlt : ∀ i, i < ts.length ↔ i < s.calls.length := fun i =>
      (hchild hat).symm.trans (h path s (Tree.get?_of_at? hat) i)
    exact Nat.le_antisymm (Nat.le_of_not_lt fun hl => Nat.lt_irrefl _ ((hlt _).2 hl))
      (Nat.le_of_not_lt fun hl => Nat.lt_irrefl _ ((hlt _).1 hl))

/-- Calls and children still match once the tree is stitched. -/
theorem Regular.stitch (ht : Regular t) : Regular t.stitch.scopes := by
  obtain ⟨-, hget⟩ := stitchFrom_of_matched [] none ht.matched
  have hsome : ∀ path, (t.stitch.scopes.get? path).isSome = (t.get? path).isSome := by
    intro path
    rw [Tree.stitch, hget, stitchedAt, Option.isSome_map]
  constructor
  · refine matched_iff.2 fun path s hs i => ?_
    obtain ⟨s', hs', rfl⟩ := Option.map_eq_some_iff.1 ((hget path).symm.trans hs)
    have hcalls : (s'.stitched (callAt none path t)).calls = s'.calls := by
      rw [← Scope.calls_unlinked, Scope.unlinked_stitched, Scope.calls_unlinked]
      rfl
    rw [hsome, hcalls]
    exact matched_iff.1 ht.matched path s' hs' i
  · obtain ⟨-, _, -, -, hordered⟩ := ht.reduce_stitch
    exact fun path s hs => (hordered path s hs).1

/-- Where all scopes are enclosed, stitching adds no edge. -/
theorem stats_stitchFrom : ∀ {t : ScopeTree} (base : Path) (call : Option Nat),
    (∀ path s, t.get? path = some s → s.Enclosed) → (stitchFrom base call t).stats = .zero
  | .node s ts, base, call, h => by
    have hroot : (s.linkTerminator call).closeStats = .zero := by
      rw [Scope.closeStats_linkTerminator]
      exact (h [] s rfl).close_eq.2
    have hbelow : ∀ (n : Nat) (us : List ScopeTree) (calls : List Nat), (∀ u ∈ us, u ∈ ts) →
        (stitchChildren base calls n us).stats = .zero := by
      intro n us calls hus
      induction us generalizing n with
      | nil => rfl
      | cons u us ih =>
        have hmem := hus u List.mem_cons_self
        have hfirst : (stitchFrom (base ++ [n]) calls[n]? u).stats = .zero := by
          refine stats_stitchFrom _ _ fun path s hs => ?_
          obtain ⟨i, hi⟩ := List.mem_iff_getElem?.1 hmem
          exact h (i :: path) s (by rw [Tree.get?_cons, Tree.getFrom?, hi]; exact hs)
        rw [stitchChildren]
        split
        · exact hfirst
        · simp only [hfirst, ih (n + 1) fun v hv => hus v (List.mem_cons_of_mem _ hv)]
          rfl
    rw [stitchFrom]
    split
    · exact hroot
    · simp only [hroot, hbelow 0 ts _ fun u hu => hu]
      rfl
termination_by t => sizeOf t
decreasing_by
  have := List.sizeOf_lt_of_mem hmem
  simp only [Tree.node.sizeOf_spec]
  omega

/-- A tree that has been stitched is not changed by stitching it again, but for links. -/
theorem Regular.stitch_again (ht : Regular t)
    (h : ∀ path s, t.get? path = some s → s.Enclosed) :
    t.stitch.failure = none ∧ t.stitch.stats = .zero ∧
      ∀ path, (t.stitch.scopes.get? path).map Scope.edges = (t.get? path).map Scope.edges := by
  obtain ⟨hnone, hget⟩ := stitchFrom_of_matched [] none ht.matched
  refine ⟨hnone, stats_stitchFrom [] none h, fun path => ?_⟩
  rw [Tree.stitch, hget, stitchedAt, Option.map_map]
  cases hs : t.get? path with
  | none => rfl
  | some s => exact congrArg some (Scope.edges_stitched (h path s hs))

/-! ## Programs -/

/-- A scope that is a body has a terminator. -/
theorem Laid.terminated (hp : p.WellFormed) (ht : Laid p c [] none (p.funcs.map (·.body)) t)
    (hneat : t.Neat p) {s : Scope} (hs : t.get? path = some s) (hkind : s.kind ≠ .host) :
    s.terminator ≠ none := by
  obtain ⟨call, blocks, hscope, hdrawn⟩ := ht.drawn hp hs
  cases call with
  | none => exact absurd hdrawn.kind_eq hkind
  | some z =>
    obtain ⟨o, -, ho, hfinish⟩ := hscope.exists_finish hp
    have hended := (hneat path s hs).ended o
    rw [hdrawn.call_eq, ← hscope.blocks_eq] at hended
    exact hended ho hfinish

/-- Stitching the scopes of an accepted program encloses every scope, changes no path but those
from a start or to a terminator, and leaves nothing to do for a second time; reducing them keeps
every scope enclosed. -/
theorem stitch_encloses {source : String} (hsource : readProgram source = .ok p)
    (hbuild : p.scopeTree = .ok (t, c)) :
    let resolved := (p.resolve c t).tree
    let stitched := resolved.stitch.scopes
    resolved.stitch.failure = none ∧
      (∀ path, Option.Rel Scope.Closes (resolved.get? path) (stitched.get? path)) ∧
      (∀ s ∈ stitched.toList, s.Enclosed) ∧
      (stitched.stitch.failure = none ∧ stitched.stitch.stats = .zero ∧
        ∀ path, (stitched.stitch.scopes.get? path).map Scope.edges =
          (stitched.get? path).map Scope.edges) ∧
      ∃ reduced, stitched.reduce = .ok reduced ∧ ∀ s ∈ reduced.toList, s.Enclosed := by
  have hp := wellFormed_of_readProgram hsource
  have ht := laid_of_scopeTree hp hbuild
  obtain ⟨-, -, hneat⟩ := hp.nests.left hbuild
  have hregular := ht.regular_resolve hp
  obtain ⟨hnone, hget⟩ := stitchFrom_of_matched [] none hregular.matched
  obtain ⟨-, reduced, hreduce, hreduced, hordered⟩ := hregular.reduce_stitch
  have hended : ∀ path s, (p.resolve c t).tree.get? path = some s → s.kind ≠ .host →
      s.terminator ≠ none := by
    intro path s hs
    rw [resolve, Tree.get?_mapWithPath] at hs
    obtain ⟨s', hs', rfl⟩ := Option.map_eq_some_iff.1 hs
    rw [terminator_resolveScope]
    exact fun hkind => ht.terminated hp hneat hs' hkind
  have henclosed : ∀ path s, (p.resolve c t).tree.stitch.scopes.get? path = some s →
      s.Enclosed := by
    intro path s hs
    obtain ⟨s', hs', rfl⟩ := Option.map_eq_some_iff.1 ((hget path).symm.trans hs)
    exact ((hregular.ordered path s' hs').enclosed_close (hended path s' hs')).of_unlinked
      Scope.unlinked_stitched
  refine ⟨hnone, fun path => ?_, fun s hs => ?_, hregular.stitch.stitch_again henclosed,
    reduced, hreduce, fun s hs => ?_⟩
  · rw [Tree.stitch, hget, stitchedAt]
    cases hs : (p.resolve c t).tree.get? path with
    | none => exact .none
    | some s => exact .some ((hregular.ordered path s hs).closes_close.of_unlinked
        Scope.unlinked_stitched)
  · obtain ⟨path, hs⟩ := Tree.mem_toList_iff.1 hs
    exact henclosed path s hs
  · obtain ⟨path, hs⟩ := Tree.mem_toList_iff.1 hs
    rw [hreduced, ← hget] at hs
    obtain ⟨s', hs', rfl⟩ := Option.map_eq_some_iff.1 hs
    exact (henclosed path s' hs').reduced (hordered path s' hs').1

/-- A launch of three joins, one of which waits on another. -/
def threeJoins : String := "func @f() \x7b
  %h = launch \x7b
    %a = join
    %b = join
    %c = join [%a]
    end
  \x7d
\x7d
"

theorem stitch_encloses_threeJoins : ∃ p t c, readProgram threeJoins = .ok p ∧
    p.scopeTree = .ok (t, c) ∧
    (p.resolve c t).tree.toList.map Scope.edges = [[], [(1, 3)]] ∧
    (p.resolve c t).tree.stitch.scopes.toList.map Scope.edges =
      [[(0, 1)], [(1, 3), (2, 4), (3, 4), (0, 1), (0, 2)]] ∧
    (∀ s ∈ (p.resolve c t).tree.stitch.scopes.toList, s.Enclosed) ∧
    (p.resolve c t).tree.stitch.scopes.stitch.stats = .zero := by
  obtain ⟨p, t, c, hsource, hbuild, htest⟩ := passes_iff.1
    (show passes threeJoins (fun p t c =>
      (p.resolve c t).tree.toList.map Scope.edges = [[], [(1, 3)]] &&
      (p.resolve c t).tree.stitch.scopes.toList.map Scope.edges =
        [[(0, 1)], [(1, 3), (2, 4), (3, 4), (0, 1), (0, 2)]]) = true by decide +kernel)
  simp only [Bool.and_eq_true, decide_eq_true_eq] at htest
  obtain ⟨-, -, henclosed, ⟨-, hstats, -⟩, -⟩ := stitch_encloses hsource hbuild
  exact ⟨p, t, c, hsource, hbuild, htest.1, htest.2, henclosed, hstats⟩

end AsyncOrder
