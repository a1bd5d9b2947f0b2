import AsyncOrder.Proofs.Pipeline.Reduced
import AsyncOrder.Proofs.Rewriting.Preservation
import Mathlib.Tactic.TFAE

/-!
# There and back again

Rewriting takes the dependency lists from the reduced tree.  The rewritten program is well-formed
and has the scopes of the program, so it builds and reduces as well.  Where the tokens filled in
for a waiter are produced by all of its sources, and by nothing but what comes before it in the
reduced scope, the reduced scope comes back; and nowhere else.
-/

namespace AsyncOrder

open Program AsyncOrder.Digraph Relation

variable {p : Program} {t reduced : ScopeTree} {c : Context} {s s' : Scope} {o : OpId}
variable {u v : Nat} {path : Path} {token : ValueId}

/-- The tokens filled in for the waiters of a reduced scope are produced by all of their sources
but the start, and by nothing that does not lead to the waiter anyway. -/
def Program.Restores (p : Program) (c : Context) (path : Path) (r : Scope) : Prop :=
  ∀ v o, (v, o) ∈ p.waiters r →
    (∀ u, r.graph.Edge u v → u ≠ Scope.start →
      ∃ token ∈ p.fillTokens r v o, p.Produces c path token u) ∧
    ∀ token ∈ p.fillTokens r v o, ∀ u, p.Produces c path token u → r.graph.Path u v

/-! ## The rewritten program -/

section

variable (hp : p.WellFormed) (ht : Laid p c [] none (p.funcs.map (·.body)) t)
variable (hget : ∀ path, reduced.get? path = (t.get? path).map (p.reducedAt c t path))
include hp ht

theorem Laid.waiter (hs : t.get? path = some s) (ho : s.op? v = some o)
    (hasync : (p.kind o).isAsync = true) : (v, o) ∈ p.waiters (p.reducedAt c t path s) := by
  obtain ⟨call, blocks, -, h⟩ := ht.drawn hp hs
  obtain ⟨-, pre, post, hops, -⟩ := h.op?_eq_some ho
  have holt := lt_of_mem_members hp.linked
    (show o ∈ p.members blocks from hops ▸ List.mem_append_right _ List.mem_cons_self)
  refine mem_waiters.2 ⟨op?_reducedAt.trans ho, ?_, hasync⟩
  rw [isLive, hp.linked.live o holt]
  rfl

include hget

/-- A list holds the tokens of the sources in the one scope that has the operation. -/
theorem Laid.mem_deps_rewriteTokens (hs : t.get? path = some s) (ho : s.op? v = some o)
    (hasync : (p.kind o).isAsync = true) : token ∈ (p.rewriteTokens reduced).1.deps o ↔
      token ∈ p.fillTokens (p.reducedAt c t path s) v o := by
  obtain ⟨call, blocks, -, h⟩ := ht.drawn hp hs
  obtain ⟨-, pre, post, hops, -⟩ := h.op?_eq_some ho
  have holt := lt_of_mem_members hp.linked
    (show o ∈ p.members blocks from hops ▸ List.mem_append_right _ List.mem_cons_self)
  rw [Program.mem_deps_rewriteTokens (ht.waits hp hget)]
  constructor
  · rintro ⟨-, r, hr, v', hv', htoken⟩
    obtain ⟨path', hpath'⟩ := Tree.mem_toList_iff.1 hr
    rw [hget] at hpath'
    obtain ⟨s', hs', rfl⟩ := Option.map_eq_some_iff.1 hpath'
    obtain ⟨call', blocks', -, h'⟩ := ht.drawn hp hs'
    obtain ⟨rfl, rfl⟩ := h'.op?_inj h (op?_reducedAt.symm.trans (mem_waiters.1 hv').1) ho
    obtain rfl := Option.some.inj (hs'.symm.trans hs)
    exact htoken
  · intro htoken
    refine ⟨holt, p.reducedAt c t path s, Tree.mem_toList_iff.2 ⟨path, by rw [hget, hs]; rfl⟩, v,
      ht.waiter hp hs ho hasync, htoken⟩

/-- The rewritten program waits on nothing that is not visible. -/
theorem Laid.wellFormed_rewriteTokens : (p.rewriteTokens reduced).1.WellFormed := by
  refine hp.of_strip strip_rewriteTokens fun o w hw => ?_
  obtain ⟨-, r, hr, v, hv, -⟩ := (Program.mem_deps_rewriteTokens (ht.waits hp hget)).1 hw
  obtain ⟨path, hpath⟩ := Tree.mem_toList_iff.1 hr
  rw [hget] at hpath
  obtain ⟨s, hs, rfl⟩ := Option.map_eq_some_iff.1 hpath
  obtain ⟨hv, -, hasync⟩ := mem_waiters.1 hv
  have ho := op?_reducedAt.symm.trans hv
  obtain ⟨call, blocks, hscope, h⟩ := ht.drawn hp hs
  have hfilled := (ht.mem_deps_rewriteTokens hp hget hs ho hasync).1 hw
  obtain ⟨hvisible, htype⟩ := h.visible_of_mem_fillTokens hp hscope
    (map_vertices_reducedAt Vertex.event fun _ => rfl)
    (fun u v huv => ((edge_reducedAt (h.ordered_resolveScope hp hscope)).1 huv).1) ho hasync hfilled
  exact ⟨hasync, htype, hvisible⟩

theorem Laid.laid_rewriteTokens (hbuild : p.scopeTree = .ok (t, c)) :
    (p.rewriteTokens reduced).1.scopeTree = .ok (t, c) ∧
      Laid (p.rewriteTokens reduced).1 c []
        none ((p.rewriteTokens reduced).1.funcs.map (·.body)) t := by
  have hbuild' : (p.rewriteTokens reduced).1.scopeTree = .ok (t, c) :=
    scopeTree_strip.1 (strip_rewriteTokens ▸ scopeTree_strip.2 hbuild)
  exact ⟨hbuild', laid_of_scopeTree (ht.wellFormed_rewriteTokens hp hget) hbuild'⟩

end

/-! ## Edges of the rewritten program -/

theorem produces_of_strip {q : Program} (h : q.strip false = p.strip false) :
    q.Produces c path token u ↔ p.Produces c path token u := by
  rw [Produces, Produces, ← @producers_strip false, h, producers_strip]

theorem tokenList_of_strip {q : Program} (h : q.strip false = p.strip false)
    (ho : (p.kind o).isAsync = false) : q.tokenList o = p.tokenList o := by
  have hkind := kind_eq_of_strip h o
  have hoperands := operands_eq_of_strip h o
  have htype := valueType_eq_of_strip h
  cases hk : p.kind o <;> simp_all [tokenList, OpKind.isAsync]

section

variable {q : Program} (hstrip : q.strip false = p.strip false)
variable (hdeps : ∀ v o, s.op? v = some o → (p.kind o).isAsync = true →
  ∀ token, token ∈ q.deps o ↔ token ∈ p.fillTokens (p.reducedAt c t path s) v o)
include hstrip

/-- Edges to a vertex that does not wait stay. -/
theorem edge_resolveScope_of_strip (hv : ∀ o, s.op? v = some o → (p.kind o).isAsync = false) :
    (q.resolveScope c path s).graph.Edge u v ↔ (p.resolveScope c path s).graph.Edge u v := by
  rw [edge_resolveScope, edge_resolveScope]
  refine or_congr_right (and_congr_right fun _ => and_congr_right fun _ =>
    exists_congr fun o => and_congr_right fun ho => ?_)
  rw [tokenList_of_strip hstrip (hv o ho)]
  exact exists_congr fun token => and_congr_right fun _ => produces_of_strip hstrip

include hdeps

/-- Edges to a waiter come from the tokens filled in. -/
theorem edge_resolveScope_of_filled (hv : v < s.size) (ho : s.op? v = some o)
    (hasync : (p.kind o).isAsync = true) (hne : u ≠ v)
    (htoken : token ∈ p.fillTokens (p.reducedAt c t path s) v o)
    (hu : p.Produces c path token u) : (q.resolveScope c path s).graph.Edge u v := by
  have hkind : (q.kind o).isAsync = true := kind_eq_of_strip hstrip o ▸ hasync
  refine edge_resolveScope.2 (Or.inr ⟨hv, hne, o, ho, token, ?_, (produces_of_strip hstrip).2 hu⟩)
  rw [tokenList_of_isAsync hkind]
  exact (hdeps v o ho hasync token).2 htoken

variable (hg : (p.resolveScope c path s).Ordered) (hg' : (q.resolveScope c path s).Ordered)
include hg hg'

/-- Where the tokens restore the scope, its paths are those of the rewritten program. -/
theorem path_close_of_restores
    (hwaiter : ∀ v o, s.op? v = some o → (p.kind o).isAsync = true →
      (v, o) ∈ p.waiters (p.reducedAt c t path s))
    (hrestores : p.Restores c path (p.reducedAt c t path s)) :
    (q.resolveScope c path s).close.graph.Path u v ↔
      (p.resolveScope c path s).close.graph.Path u v := by
  have hchain : ∀ {p : Program} {u v}, s.graph.Edge u v →
      (p.resolveScope c path s).close.graph.Path u v := fun h =>
    .single (Scope.edge_close_of_edge (edge_resolveScope.2 (Or.inl h)))
  constructor
  · refine hg.path_close_of_edges (by simp) (by simp) fun u v huv => ?_
    rcases edge_resolveScope.1 huv with huv' | ⟨hv, hne, o, ho, token, htoken, hu⟩
    · exact hchain huv'
    · by_cases hasync : (p.kind o).isAsync = true
      · rw [tokenList_of_isAsync (kind_eq_of_strip hstrip o ▸ hasync), hdeps v o ho hasync]
          at htoken
        exact (path_reducedAt hg).1 ((hrestores v o (hwaiter v o ho hasync)).2 token htoken u
          ((produces_of_strip hstrip).1 hu))
      · have hv : ∀ o', s.op? v = some o' → (p.kind o').isAsync = false := fun o' ho' => by
          obtain rfl := Option.some.inj (ho.symm.trans ho')
          exact Bool.eq_false_iff.2 hasync
        exact .single (Scope.edge_close_of_edge ((edge_resolveScope_of_strip hstrip hv).1 huv))
  · refine hg'.path_close_of_edges (by simp) (by simp) fun u v huv => ?_
    have hpath := (path_reducedAt (t := t) hg).2 (.single (Scope.edge_close_of_edge huv))
    -- every reduced edge is a path of the rewritten program
    refine path_of_edges (fun u v huv => ?_) hpath
    have hclose := ((edge_reducedAt hg).1 huv).1
    obtain ⟨hult, hvlt⟩ := hg.bounded_close u v hclose
    have hlt := hg.forward_close u v hclose
    by_cases hwaits : ∃ o, s.op? v = some o ∧ (p.kind o).isAsync = true
    · obtain ⟨o, ho, hasync⟩ := hwaits
      by_cases hstart : u = Scope.start
      · rw [hstart]
        exact hg'.start_path hvlt (by rw [Scope.start]; omega)
      · obtain ⟨token, htoken, hu⟩ := (hrestores v o (hwaiter v o ho hasync)).1 u huv hstart
        exact .single (Scope.edge_close_of_edge (edge_resolveScope_of_filled hstrip hdeps hvlt ho
          hasync (Nat.ne_of_lt hlt) htoken hu))
    · have hv : ∀ o, s.op? v = some o → (p.kind o).isAsync = false := fun o ho =>
        Bool.eq_false_iff.2 fun hasync => hwaits ⟨o, ho, hasync⟩
      rcases Scope.edge_close.1 hclose with h | h | h
      · exact .single (Scope.edge_close_of_edge ((edge_resolveScope_of_strip hstrip hv).2 h))
      · obtain ⟨hterm, hu, hstart, hne, -⟩ := Scope.mem_endEdges.1 h
        exact hg'.path_terminator hterm hu hstart hne
      · obtain ⟨rfl, hv, hstart, -⟩ := Scope.mem_startEdges.1 h
        exact hg'.start_path hv hstart

omit hg in
/-- Where the reduced edges come back, the tokens restore the scope. -/
theorem restores_of_edges {call : Option OpId} {blocks : List BlockId} {kind : ScopeKind}
    (hq : q.WellFormed) (hs : q.IsScope call blocks)
    (h : Drawn q c path kind call (q.members blocks) s)
    (hedge : ∀ u v, (q.reducedAt c t path s).graph.Edge u v ↔
      (p.reducedAt c t path s).graph.Edge u v) :
    p.Restores c path (p.reducedAt c t path s) := by
  intro v o hv
  obtain ⟨hv, -, hasync⟩ := mem_waiters.1 hv
  have ho := op?_reducedAt.symm.trans hv
  have hasync' : (q.kind o).isAsync = true := kind_eq_of_strip hstrip o ▸ hasync
  constructor
  · intro u huv hstart
    have hclose := ((edge_reducedAt hg').1 ((hedge u v).2 huv)).1
    rcases h.edge_close_resolveScope ho hasync' hclose with hu | ⟨token, htoken, hu⟩
    · exact absurd hu hstart
    · exact ⟨token, (hdeps v o ho hasync token).1 htoken, (produces_of_strip hstrip).1 hu⟩
  · intro token htoken u hu
    have hwaits : token ∈ q.tokenList o := by
      rw [tokenList_of_isAsync hasync']
      exact (hdeps v o ho hasync token).2 htoken
    have hlt := h.lt_of_produces hq hs ho hwaits ((produces_of_strip hstrip).2 hu)
    have hvlt : v < s.size := by
      obtain ⟨x, hx, -⟩ := Option.bind_eq_some_iff.1 ho
      exact (List.getElem?_eq_some_iff.1 hx).1
    have huv := edge_resolveScope_of_filled hstrip hdeps hvlt ho hasync (Nat.ne_of_lt hlt) htoken hu
    have hpath := (path_reducedAt (t := t) hg').2 (.single (Scope.edge_close_of_edge huv))
    exact path_of_edges (fun u v huv => .single ((hedge u v).1 huv)) hpath

end

/-! ## Edges by key -/

theorem mem_edgeKeys {a b : Key} : (a, b) ∈ s.edgeKeys ↔ ∃ u v, s.graph.Edge u v ∧
    (s.vertices.map Vertex.key)[u]? = some a ∧ (s.vertices.map Vertex.key)[v]? = some b := by
  have hkeys : ∀ u v, s.keysOf? (u, v) = some (a, b) ↔
      (s.vertices.map Vertex.key)[u]? = some a ∧ (s.vertices.map Vertex.key)[v]? = some b := by
    intro u v
    rw [Scope.keysOf?, List.getElem?_map, List.getElem?_map]
    cases s.vertices[u]? <;> cases s.vertices[v]? <;> simp
  simp only [Scope.edgeKeys, List.mem_eraseDups, List.mem_mergeSort, List.mem_filterMap,
    Prod.exists, hkeys]
  exact Iff.rfl

/-- Where keys do not repeat, edges with the same keys are the same. -/
theorem edge_of_edgeKeys (hkeys : s.vertices.map Vertex.key = s'.vertices.map Vertex.key)
    (hinj : ∀ (u v : Nat) (a : Key), (s.vertices.map Vertex.key)[u]? = some a →
      (s.vertices.map Vertex.key)[v]? = some a → u = v)
    (hs : s.graph.Bounded) (h : ∀ e, e ∈ s.edgeKeys → e ∈ s'.edgeKeys)
    (huv : s.graph.Edge u v) : s'.graph.Edge u v := by
  have hat : ∀ {w}, w < s.size → ∃ a, (s.vertices.map Vertex.key)[w]? = some a := fun hw =>
    ⟨_, List.getElem?_eq_getElem (by simpa [Scope.size] using hw)⟩
  obtain ⟨a, ha⟩ := hat (hs u v huv).1
  obtain ⟨b, hb⟩ := hat (hs u v huv).2
  obtain ⟨u', v', huv', ha', hb'⟩ := mem_edgeKeys.1 (h _ (mem_edgeKeys.2 ⟨u, v, huv, ha, hb⟩))
  rw [← hkeys] at ha' hb'
  obtain rfl := hinj u u' a ha ha'
  obtain rfl := hinj v v' b hb hb'
  exact huv'

/-! ## Round trips -/

/-- A reduced scope comes back, or its edges as told by keys do, exactly where the tokens restore
it. -/
theorem Laid.tfae_restores (hp : p.WellFormed) (hbuild : p.scopeTree = .ok (t, c))
    (hget : ∀ path, reduced.get? path = (t.get? path).map (p.reducedAt c t path))
    (hs : t.get? path = some s) :
    [(p.rewriteTokens reduced).1.reducedAt c t path s = p.reducedAt c t path s,
      ∀ e, e ∈ ((p.rewriteTokens reduced).1.reducedAt c t path s).edgeKeys ↔
        e ∈ (p.reducedAt c t path s).edgeKeys,
      p.Restores c path (p.reducedAt c t path s)].TFAE := by
  have ht := laid_of_scopeTree hp hbuild
  have hq := ht.wellFormed_rewriteTokens hp hget
  have htq := (ht.laid_rewriteTokens hp hget hbuild).2
  have hdeps : ∀ v o, s.op? v = some o → (p.kind o).isAsync = true → ∀ token,
      token ∈ (p.rewriteTokens reduced).1.deps o ↔
        token ∈ p.fillTokens (p.reducedAt c t path s) v o :=
    fun _ _ ho hasync _ => ht.mem_deps_rewriteTokens hp hget hs ho hasync
  have hwaiter : ∀ v o, s.op? v = some o → (p.kind o).isAsync = true →
      (v, o) ∈ p.waiters (p.reducedAt c t path s) := fun _ _ ho hasync => ht.waiter hp hs ho hasync
  have hstrip : (p.rewriteTokens reduced).1.strip false = p.strip false := strip_rewriteTokens
  generalize (p.rewriteTokens reduced).1 = q at *
  obtain ⟨call, blocks, hscope, h⟩ := ht.drawn hp hs
  obtain ⟨call', blocks', hscope', h'⟩ := htq.drawn hq hs
  have hg := h.ordered_resolveScope hp hscope
  have hg' := h'.ordered_resolveScope hq hscope'
  have hkeys : ∀ p : Program, (p.reducedAt c t path s).vertices.map Vertex.key =
      s.vertices.map Vertex.key := fun p => map_vertices_reducedAt Vertex.key fun _ => rfl
  have hinj : ∀ (u v : Nat) (a : Key), (s.vertices.map Vertex.key)[u]? = some a →
      (s.vertices.map Vertex.key)[v]? = some a → u = v := by
    intro u v a hu hv
    rw [List.getElem?_map] at hu hv
    obtain ⟨x, hx, rfl⟩ := Option.map_eq_some_iff.1 hu
    obtain ⟨y, hy, hxy⟩ := Option.map_eq_some_iff.1 hv
    have hlook := h.places v y hy
    rw [hxy, h.places u x hx] at hlook
    exact (Prod.mk.inj (Option.some.inj hlook)).2
  tfae_have 1 → 2 := by
    intro heq e
    rw [heq]
  tfae_have 2 → 3 := by
    intro hsame
    refine restores_of_edges hstrip hdeps hg' hq hscope' h' fun u v => ⟨?_, ?_⟩
    · exact edge_of_edgeKeys ((hkeys q).trans (hkeys p).symm) (by rwa [hkeys])
        (bounded_reducedAt hg') fun e => (hsame e).1
    · exact edge_of_edgeKeys ((hkeys p).trans (hkeys q).symm) (by rwa [hkeys])
        (bounded_reducedAt hg) fun e => (hsame e).2
  tfae_have 3 → 1 := by
    intro hrestores
    have hsize : (q.resolveScope c path s).close.size = (p.resolveScope c path s).close.size := by
      simp
    have hedges : (q.resolveScope c path s).close.graph.reduction.edges =
        (p.resolveScope c path s).close.graph.reduction.edges :=
      reduction_edges_congr hg'.bounded_close hg.bounded_close hsize fun u v =>
        path_close_of_restores hstrip hdeps hg hg' hwaiter hrestores
    exact Scope.reduced_stitched_of_edges (by simp) hedges
  tfae_finish

variable {source : String}

/-- Rewriting an accepted program and reducing it again does not fail and gives the same scopes;
the edges of a scope come back exactly where the tokens filled in restore them. -/
theorem rewriteTokens_round_trip (hsource : readProgram source = .ok p)
    (hbuild : p.scopeTree = .ok (t, c)) :
    (p.resolve c t).tree.stitch.failure = none ∧
      ∃ reduced, (p.resolve c t).tree.stitch.scopes.reduce = .ok reduced ∧
        ∃ q, q = (p.rewriteTokens reduced).1 ∧ q.scopeTree = .ok (t, c) ∧
          (q.resolve c t).tree.stitch.failure = none ∧
          ∃ again, (q.resolve c t).tree.stitch.scopes.reduce = .ok again ∧
            (∀ path, (again.get? path).map Scope.plain = (reduced.get? path).map Scope.plain) ∧
            ∀ path r r', reduced.get? path = some r → again.get? path = some r' →
              (r' = r ↔ p.Restores c path r) ∧
                ((∀ e, e ∈ r'.edgeKeys ↔ e ∈ r.edgeKeys) ↔ p.Restores c path r) := by
  have hp := wellFormed_of_readProgram hsource
  have ht := laid_of_scopeTree hp hbuild
  obtain ⟨hnone, reduced, hreduce, hget⟩ := ht.reduced_tree hp
  obtain ⟨hbuild', htq⟩ := ht.laid_rewriteTokens hp hget hbuild
  obtain ⟨hnone', again, hagain, hget'⟩ := htq.reduced_tree (ht.wellFormed_rewriteTokens hp hget)
  refine ⟨hnone, reduced, hreduce, _, rfl, hbuild', hnone', again, hagain, fun path => ?_,
    fun path r r' hr hr' => ?_⟩
  · rw [hget, hget', Option.map_map, Option.map_map]
    refine Option.map_congr fun s _ => ?_
    exact Scope.plain_stitched_congr (by simp)
  · rw [hget] at hr
    rw [hget'] at hr'
    obtain ⟨s, hs, rfl⟩ := Option.map_eq_some_iff.1 hr
    obtain ⟨s', hs', rfl⟩ := Option.map_eq_some_iff.1 hr'
    obtain rfl := Option.some.inj (hs.symm.trans hs')
    have htfae := Laid.tfae_restores hp hbuild hget hs
    exact ⟨htfae.out 0 2, htfae.out 1 2⟩

/-- The last join waits on the second result of a conditional. -/
def secondResult : String := "func @f(%c: index) \x7b
  %r, %q = if %c \x7b
    %a = join
    %b = join
    yield %a, %b
  \x7d else \x7b
    %d = join
    %e = join
    yield %d, %e
  \x7d
  %z = join [%q]
\x7d
"

theorem rewriteTokens_round_trip_secondResult : ∃ p t c, readProgram secondResult = .ok p ∧
    p.scopeTree = .ok (t, c) ∧ ∃ reduced again,
      (p.resolve c t).tree.stitch.scopes.reduce = .ok reduced ∧
      (((p.rewriteTokens reduced).1).resolve c t).tree.stitch.scopes.reduce = .ok again ∧
      ∀ r r', reduced.get? [] = some r → again.get? [] = some r' →
        (r' = r ↔ p.Restores c [] r) := by
  obtain ⟨p, t, c, hsource, hbuild, -⟩ := passes_iff.1
    (show passes secondResult (fun _ _ _ => true) = true by decide +kernel)
  obtain ⟨-, reduced, hreduce, q, rfl, -, -, again, hagain, -, hscopes⟩ :=
    rewriteTokens_round_trip hsource hbuild
  exact ⟨p, t, c, hsource, hbuild, reduced, again, hreduce, hagain,
    fun r r' hr hr' => (hscopes [] r r' hr hr').1⟩

/-- The refilled list holds the first result, so the join waits on other vertices. -/
theorem not_rewriteTokens_round_trip : ¬ ∀ (source : String) (p : Program) (t t' : ScopeTree)
    (c c' : Context) (reduced again : ScopeTree), readProgram source = .ok p →
    p.scopeTree = .ok (t, c) → (p.resolve c t).tree.stitch.scopes.reduce = .ok reduced →
    (p.rewriteTokens reduced).1.scopeTree = .ok (t', c') →
    ((p.rewriteTokens reduced).1.resolve c' t').tree.stitch.scopes.reduce = .ok again →
    ∀ (path : Path) (r r' : Scope), reduced.get? path = some r → again.get? path = some r' →
      ∀ e, e ∈ r'.edgeKeys ↔ e ∈ r.edgeKeys := by
  intro h
  obtain ⟨p, t, c, hsource, hbuild, htest⟩ := passes_iff.1
    (show passes secondResult (fun p t c =>
      let r := p.reducedAt c t [] t.root
      r.op? 5 = some ⟨7⟩ && (p.kind ⟨7⟩).isAsync &&
        (2, 5) ∈ (p.resolveScope c [] t.root).edges &&
        (p.resolveScope c [] t.root).close.graph.successors 2 = [5] &&
        r.vertices.all fun x => ((p.vertexToken? x ⟨7⟩).toList.all fun token =>
          (p.producers c token).all fun key => c.lookup? key ≠ some ([], 2))) = true by
      decide +kernel)
  have hp := wellFormed_of_readProgram hsource
  have ht := laid_of_scopeTree hp hbuild
  obtain ⟨-, reduced, hreduce, hget⟩ := ht.reduced_tree hp
  obtain ⟨hbuild', htq⟩ := ht.laid_rewriteTokens hp hget hbuild
  obtain ⟨-, again, hagain, hget'⟩ := htq.reduced_tree (ht.wellFormed_rewriteTokens hp hget)
  have hroot : t.get? [] = some t.root := rfl
  have hr : reduced.get? [] = some (p.reducedAt c t [] t.root) := by rw [hget, hroot]; rfl
  have hr' : again.get? [] = some ((p.rewriteTokens reduced).1.reducedAt c t [] t.root) := by
    rw [hget', hroot]
    rfl
  have hrestores := ((Laid.tfae_restores hp hbuild hget hroot).out 1 2).1
    (h secondResult p t t c c reduced again hsource hbuild hreduce hbuild' hagain [] _ _ hr hr')
  obtain ⟨call, blocks, hscope, hdrawn⟩ := ht.drawn hp hroot
  have hordered := hdrawn.ordered_resolveScope hp hscope
  simp only [Bool.and_eq_true, decide_eq_true_eq, List.all_eq_true] at htest
  obtain ⟨⟨⟨⟨hop, hasync⟩, hedge⟩, hsucc⟩, htokens⟩ := htest
  have hlead : (p.reducedAt c t [] t.root).graph.Edge 2 5 := by
    refine (edge_reducedAt hordered).2 ⟨Scope.edge_close_of_edge hedge, ?_⟩
    rintro ⟨w, hw, hpath⟩
    rw [← mem_successors, hsucc, List.mem_singleton] at hw
    subst hw
    exact Nat.lt_irrefl 5 (hpath.lt hordered.forward_close)
  obtain ⟨token, htoken, key, hkey, hlook⟩ :=
    (hrestores 5 ⟨7⟩ (ht.waiter hp hroot (op?_reducedAt.symm.trans hop) hasync)).1 2 hlead
      (by decide)
  rw [fillTokens, List.mem_filterMap] at htoken
  obtain ⟨u, -, htoken⟩ := htoken
  obtain ⟨x, hx, htoken⟩ := Option.bind_eq_some_iff.1 (Option.filter_eq_some_iff.1 htoken).1
  exact htokens x (List.mem_of_getElem? hx) token (by simp [htoken]) key hkey hlook

end AsyncOrder
