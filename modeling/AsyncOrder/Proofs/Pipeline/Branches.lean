import AsyncOrder.Proofs.Scope.Resolving

/-!
# Reduction and the branches that run

Once a branch is chosen for every conditional, the vertices whose owner lies in a branch that was
not chosen do not run.  The active graph of a scope has the edges between the others.  Reduction
looks at all branches at once: an edge goes when any longer path leads the same way, through
active vertices or not.  So the active paths of a reduced scope are active paths of the scope,
and all active paths of the scope are kept exactly when every active edge that a longer path
replaces is replaced by an active one.
-/

namespace AsyncOrder

open AsyncOrder.Digraph Relation

/-! ## Active vertices -/

namespace Program

variable (p : Program) (takesThen : OpId → Bool)

/-- The region of a conditional that runs. -/
def chosen? (o : OpId) : Option BlockId := (p.op o).regions[if takesThen o then 0 else 1]?

/-- `o` stands directly in a branch that does not run. -/
def isPassedOver (o : OpId) : Bool :=
  match p.parentOp? o with
  | some z => p.kind z = .branch && p.chosen? takesThen z ≠ some (p.op o).parent
  | none => false

/-- `o` lies in a branch that does not run. -/
def isSkipped (o : OpId) : Bool := (o :: p.ancestors o).any (p.isPassedOver takesThen)

/-- The owner of the vertex runs, if it has one. -/
def isActive (s : Scope) (v : Nat) : Bool :=
  match s.vertices[v]? with
  | some x => !(x.owner.any (p.isSkipped takesThen))
  | none => false

/-- The edges between active vertices. -/
def activeGraph (s : Scope) : Digraph :=
  { s.graph with
    edges := s.edges.filter fun e => p.isActive takesThen s e.1 && p.isActive takesThen s e.2 }

end Program

variable {p : Program} {takesThen : OpId → Bool} {s : Scope} {u v : Nat}

theorem edge_activeGraph : (p.activeGraph takesThen s).Edge u v ↔
    s.graph.Edge u v ∧ p.isActive takesThen s u = true ∧ p.isActive takesThen s v = true := by
  rw [Edge, Program.activeGraph, List.mem_filter, Bool.and_eq_true]
  exact Iff.rfl

theorem path_activeGraph : (p.activeGraph takesThen s).Path u v ↔
    TransGen (fun a b => s.graph.Edge a b ∧ p.isActive takesThen s a = true ∧
      p.isActive takesThen s b = true) u v := by
  rw [Digraph.Path, show (p.activeGraph takesThen s).Edge = fun a b => s.graph.Edge a b ∧
    p.isActive takesThen s a = true ∧ p.isActive takesThen s b = true from
    funext fun a => funext fun b => propext edge_activeGraph]

/-! ## Reduced active graphs -/

variable (hs : s.Ordered)
include hs

theorem edge_activeGraph_reduced : (p.activeGraph takesThen s.reduced).Edge u v ↔
    (p.activeGraph takesThen s).Edge u v ∧ ¬ s.graph.Implied u v := by
  have hedge : s.reduced.graph.Edge u v ↔ s.graph.Edge u v ∧ ¬ s.graph.Implied u v :=
    edge_reduction hs.bounded
  rw [edge_activeGraph, edge_activeGraph, hedge]
  exact ⟨fun ⟨⟨he, hi⟩, ha⟩ => ⟨⟨he, ha⟩, hi⟩, fun ⟨⟨he, ha⟩, hi⟩ => ⟨⟨he, hi⟩, ha⟩⟩

/-- Active paths of the reduced scope are active paths of the scope. -/
theorem path_activeGraph_of_reduced (h : (p.activeGraph takesThen s.reduced).Path u v) :
    (p.activeGraph takesThen s).Path u v :=
  path_of_edges (fun _ _ h => .single ((edge_activeGraph_reduced hs).1 h).1) h

/-- Active paths of the scope are paths of the reduced scope. -/
theorem path_reduced_of_active (h : (p.activeGraph takesThen s).Path u v) :
    s.reduced.graph.Path u v := by
  refine (path_reduction hs.bounded hs.forward.acyclic).2 ?_
  exact path_of_edges (fun _ _ h => .single (edge_activeGraph.1 h).1) h

/-- All active paths are kept exactly when every active edge that is replaced is replaced by an
active path. -/
theorem path_activeGraph_iff_reduced_iff :
    (∀ u v, (p.activeGraph takesThen s).Path u v ↔ (p.activeGraph takesThen s.reduced).Path u v) ↔
      ∀ u v, (p.activeGraph takesThen s).Edge u v → s.graph.Implied u v →
        (p.activeGraph takesThen s).Implied u v := by
  constructor
  · intro h u v huv himp
    obtain ⟨w, huw, hwv⟩ := TransGen.head'_iff.1 ((h u v).1 (.single huv))
    obtain ⟨huw, hnot⟩ := (edge_activeGraph_reduced hs).1 huw
    rcases reflTransGen_iff_eq_or_transGen.1 hwv with rfl | hwv
    · exact absurd himp hnot
    · exact ⟨w, huw, path_activeGraph_of_reduced hs hwv⟩
  · intro h u v
    refine ⟨fun huv => ?_, path_activeGraph_of_reduced hs⟩
    refine path_activeGraph.2 (path_within_reduction hs.bounded hs.forward.acyclic
      (fun w => p.isActive takesThen s w = true) (fun a b ha hb hab himp => ?_)
      (path_activeGraph.1 huv))
    obtain ⟨w, haw, hwb⟩ := h a b (edge_activeGraph.2 ⟨hab, ha, hb⟩) himp
    obtain ⟨haw, -, hw⟩ := edge_activeGraph.1 haw
    exact ⟨w, ⟨hw, haw⟩, path_activeGraph.1 hwb⟩

omit hs

/-! ## All scopes -/

variable {source : String} {t : ScopeTree} {c : Context}

/-- Reducing the scopes of an accepted program does not fail, and keeps active paths as far as
active edges are replaced by active paths only. -/
theorem active_paths_of_reduce (hsource : readProgram source = .ok p)
    (hbuild : p.scopeTree = .ok (t, c)) :
    (p.resolve c t).tree.stitch.failure = none ∧
      ∃ reduced, (p.resolve c t).tree.stitch.scopes.reduce = .ok reduced ∧
        ∀ path s, (p.resolve c t).tree.stitch.scopes.get? path = some s →
          ∃ r, reduced.get? path = some r ∧ r.vertices = s.vertices ∧
            ∀ takesThen : OpId → Bool,
              (∀ u v, (p.activeGraph takesThen r).Path u v →
                (p.activeGraph takesThen s).Path u v) ∧
              (∀ u v, (p.activeGraph takesThen s).Path u v → r.graph.Path u v) ∧
              ((∀ u v, (p.activeGraph takesThen s).Path u v ↔
                  (p.activeGraph takesThen r).Path u v) ↔
                ∀ u v, (p.activeGraph takesThen s).Edge u v → s.graph.Implied u v →
                  (p.activeGraph takesThen s).Implied u v) := by
  have hp := wellFormed_of_readProgram hsource
  have hregular := (laid_of_scopeTree hp hbuild).regular_resolve hp
  obtain ⟨hnone, reduced, hreduce, -, hscopes⟩ := hregular.reduce_stitch
  refine ⟨hnone, reduced, hreduce, fun path s hs => ?_⟩
  obtain ⟨hordered, hreduced⟩ := hscopes path s hs
  refine ⟨s.reduced, hreduced, rfl, fun takesThen => ⟨?_, ?_, ?_⟩⟩
  · exact fun u v => path_activeGraph_of_reduced hordered
  · exact fun u v => path_reduced_of_active hordered
  · exact path_activeGraph_iff_reduced_iff hordered

/-- The last join waits on the first one directly, and by way of one branch of the conditional. -/
def detour : String := "func @f(%c: index) \x7b
  %a = join
  %r = if %c \x7b
    %b = join [%a]
    yield %b
  \x7d else \x7b
    %d = join
    yield %d
  \x7d
  %z = join [%r, %a]
\x7d
"

theorem active_paths_of_reduce_detour : ∃ p t c, readProgram detour = .ok p ∧
    p.scopeTree = .ok (t, c) ∧ ∃ reduced,
      (p.resolve c t).tree.stitch.scopes.reduce = .ok reduced ∧
        ∀ s, (p.resolve c t).tree.stitch.scopes.get? [] = some s →
          ∃ r, reduced.get? [] = some r ∧
            ∀ u v, (p.activeGraph (fun _ => true) s).Path u v → r.graph.Path u v := by
  obtain ⟨p, t, c, hsource, hbuild, -⟩ := passes_iff.1
    (show passes detour (fun _ _ _ => true) = true by decide +kernel)
  obtain ⟨-, reduced, hreduce, h⟩ := active_paths_of_reduce hsource hbuild
  refine ⟨p, t, c, hsource, hbuild, reduced, hreduce, fun s hs => ?_⟩
  obtain ⟨r, hr, -, hpaths⟩ := h [] s hs
  exact ⟨r, hr, (hpaths _).2.1⟩

/-- Where the other branch is taken, nothing active leads round the edge that goes. -/
theorem not_active_paths_kept : ¬ ∀ (source : String) (p : Program) (t : ScopeTree) (c : Context)
    (reduced : ScopeTree), readProgram source = .ok p → p.scopeTree = .ok (t, c) →
    (p.resolve c t).tree.stitch.scopes.reduce = .ok reduced →
    ∀ (takesThen : OpId → Bool) (path : Path) (s r : Scope),
      (p.resolve c t).tree.stitch.scopes.get? path = some s → reduced.get? path = some r →
      ∀ u v, (p.activeGraph takesThen s).Path u v ↔ (p.activeGraph takesThen r).Path u v := by
  intro h
  obtain ⟨p, t, c, hsource, hbuild, htest⟩ := passes_iff.1
    (show passes detour (fun p t c =>
      let s := (p.resolve c t).tree.stitch.scopes.root
      (p.activeGraph (fun _ => false) s).successors 1 = [4] && (1, 2) ∈ s.edges &&
        (2, 4) ∈ s.edges) = true by decide +kernel)
  have hp := wellFormed_of_readProgram hsource
  have hregular := (laid_of_scopeTree hp hbuild).regular_resolve hp
  obtain ⟨-, reduced, hreduce, -, hscopes⟩ := hregular.reduce_stitch
  obtain ⟨s, hs⟩ : ∃ s, (p.resolve c t).tree.stitch.scopes.root = s := ⟨_, rfl⟩
  have hroot : (p.resolve c t).tree.stitch.scopes.get? [] = some s := congrArg some hs
  obtain ⟨hordered, hreduced⟩ := hscopes [] s hroot
  simp only [hs, Bool.and_eq_true, decide_eq_true_eq] at htest
  obtain ⟨⟨hactive, hfirst⟩, hsecond⟩ := htest
  have hedge : (p.activeGraph (fun _ => false) s).Edge 1 4 := by
    rw [← mem_successors, hactive]
    exact List.mem_singleton_self 4
  obtain ⟨w, hw, hpath⟩ := (path_activeGraph_iff_reduced_iff hordered).1
    (h detour p t c _ hsource hbuild hreduce _ [] _ _ hroot hreduced) 1 4 hedge
    ⟨2, hfirst, .single hsecond⟩
  rw [← mem_successors, hactive, List.mem_singleton] at hw
  subst hw
  exact Nat.lt_irrefl 4 (hpath.lt fun u v h => hordered.forward u v (edge_activeGraph.1 h).1)

end AsyncOrder
