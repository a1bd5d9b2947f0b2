import AsyncOrder.Proofs.Scope.Nesting
import AsyncOrder.Proofs.Scope.Stitching
import AsyncOrder.Proofs.Scope.Tokens

/-!
# Resolved scopes

The edges of a resolved scope are its chains and, for every vertex of an operation, one from the
last vertex of each producer of a token in its list.  Producers come before the operation, so
all edges lead forwards; the terminator, if there is one, is the last vertex:

    readProgram source = .ok p → p.scopeTree = .ok (t, c) → Regular (p.resolve c t).tree
-/

namespace AsyncOrder

open Program Relation

variable {p : Program} {c : Context} {path : Path} {call : Option OpId} {kind : ScopeKind}
variable {blocks : List BlockId} {t : ScopeTree} {s : Scope} {o z : OpId} {u v : Nat}
variable {token : ValueId}

/-! ## All but edges -/

@[simp]
theorem plain_resolveScope : (p.resolveScope c path s).plain = s.plain := by
  rw [resolveScope, Scope.plain_addEdges]

@[simp]
theorem size_resolveScope : (p.resolveScope c path s).size = s.size := by
  rw [resolveScope, Scope.size_addEdges]

@[simp]
theorem terminator_resolveScope : (p.resolveScope c path s).terminator = s.terminator := by
  rw [resolveScope, Scope.addEdges]

/-! ## Edges of tokens -/

/-- The token is there after vertex `u` of the scope at `path`. -/
def Program.Produces (p : Program) (c : Context) (path : Path) (token : ValueId) (u : Nat) : Prop :=
  ∃ key ∈ p.producers c token, c.lookup? key = some (path, u)

theorem mem_edgesTo {e : Nat × Nat} : e ∈ p.edgesTo c path s v ↔ e.2 = v ∧ e.1 ≠ v ∧
    ∃ o, s.op? v = some o ∧ ∃ token ∈ p.tokenList o, p.Produces c path token e.1 := by
  rw [edgesTo]
  cases s.op? v with
  | none => simp
  | some o =>
    simp only [Option.map_some, Option.getD_some, List.mem_flatMap, List.mem_filterMap,
      Option.some.injEq, exists_eq_left']
    constructor
    · rintro ⟨token, htoken, key, hkey, he⟩
      split at he
      · next place u hlook =>
        split at he
        · next hcond =>
          rw [Bool.and_eq_true, decide_eq_true_eq, decide_eq_true_eq] at hcond
          obtain ⟨rfl, hne⟩ := hcond
          obtain rfl := Option.some.inj he
          exact ⟨rfl, hne, token, htoken, key, hkey, hlook⟩
        · simp at he
      · simp at he
    · rintro ⟨rfl, hne, token, htoken, key, hkey, hlook⟩
      refine ⟨token, htoken, key, hkey, ?_⟩
      simp [hlook, hne]

/-- The edges of a resolved scope are the old ones and those of its tokens. -/
theorem edge_resolveScope : (p.resolveScope c path s).graph.Edge u v ↔ s.graph.Edge u v ∨
    v < s.size ∧ u ≠ v ∧ ∃ o, s.op? v = some o ∧
      ∃ token ∈ p.tokenList o, p.Produces c path token u := by
  rw [resolveScope, Scope.graph_addEdges, Digraph.edge_addEdges, List.mem_flatMap]
  refine or_congr_right ⟨?_, ?_⟩
  · rintro ⟨w, hw, he⟩
    obtain ⟨rfl, hne, htoken⟩ := mem_edgesTo.1 he
    exact ⟨List.mem_range.1 hw, hne, htoken⟩
  · rintro ⟨hv, hne, htoken⟩
    exact ⟨v, List.mem_range.2 hv, mem_edgesTo.2 ⟨rfl, hne, htoken⟩⟩

theorem mem_used_of_mem_tokenList (h : token ∈ p.tokenList o) : token ∈ p.used o := by
  rw [tokenList] at h
  split at h
  · exact List.mem_append_left _ (List.drop_subset _ _ (List.mem_of_mem_filter h))
  · exact List.mem_append_left _ (List.mem_of_mem_filter h)
  · split at h
    · exact List.mem_append_right _ h
    · exact absurd h List.not_mem_nil

/-! ## Places of operations -/

/-- The vertex of an operation is the first of a member. -/
theorem Drawn.op?_eq_some {ops : List OpId} (h : Drawn p c path kind call ops s)
    (ho : s.op? v = some o) : p.happens o = true ∧
      ∃ pre post, ops = pre ++ o :: post ∧ v = p.place kind pre := by
  obtain ⟨x, hx, hop⟩ := Option.bind_eq_some_iff.1 ho
  refine getElem?_layout_op (e := x.event) ?_ hop
  rw [← h.vertices, List.getElem?_map, hx, Option.map_some]

/-- The last vertex of a member is found where its events end. -/
theorem Drawn.lookup_exit {ops pre post : List OpId} (h : Drawn p c path kind call ops s)
    (hops : ops = pre ++ z :: post) (hz : p.happens z = true) :
    ∃ key, c.exit? z = some key ∧
      c.lookup? key = some (path, p.place kind (pre ++ [z]) - 1) := by
  obtain ⟨a, b, -, hb, -, hexit⟩ := h.ends pre z post hops hz
  exact ⟨b.key, hexit, h.places _ b hb⟩

theorem exists_of_mem_producers {key : Key} (h : key ∈ p.producers c token) :
    ∃ w z, ReflTransGen (Leads p.yieldedBy) token w ∧ p.producerOp? w = some z ∧
      c.exit? z = some key := by
  rw [producers, List.mem_eraseDups, List.mem_filterMap] at h
  obtain ⟨w, hw, hkey⟩ := h
  obtain ⟨v, hv, hvw⟩ := visit_sound hw
  rw [directProducer?_eq] at hkey
  obtain ⟨z, hz, hexit⟩ := Option.bind_eq_some_iff.1 hkey
  exact ⟨w, z, List.mem_singleton.1 hv ▸ hvw, hz, hexit⟩

variable (hp : p.WellFormed) (hs : p.IsScope call blocks)
variable (h : Drawn p c path kind call (p.members blocks) s)
include hp hs h

/-- What produces a token in the list of an operation is in the scope, before its vertex. -/
theorem Drawn.lookup_of_mem_producers {key : Key} (ho : s.op? v = some o)
    (htoken : token ∈ p.tokenList o) (hkey : key ∈ p.producers c token) :
    ∃ u, c.lookup? key = some (path, u) ∧ u < v := by
  obtain ⟨w, z, hw, hz, hexit⟩ := exists_of_mem_producers hkey
  obtain ⟨-, pre, post, hops, rfl⟩ := h.op?_eq_some ho
  have hmem : o ∈ p.members blocks := hops ▸ List.mem_append_right _ List.mem_cons_self
  have hvisible := hp.visible o (lt_of_mem_members hp.linked hmem) token
    (mem_used_of_mem_tokenList htoken)
  obtain ⟨hzmem, hhappens, hlt⟩ := hs.producer_before hp hmem hvisible hw hz
  obtain ⟨pre', post', hops'⟩ := List.append_of_mem hzmem
  obtain ⟨key', hexit', hlook⟩ := h.lookup_exit hops' hhappens
  obtain rfl := Option.some.inj (hexit.symm.trans hexit')
  refine ⟨_, hlook, ?_⟩
  have hplace := place_lt_of_idxOf p kind (hs.nodup_members hp) hops hops' hlt
  have hpos : 0 < p.place kind (pre' ++ [z]) := by
    rw [place]
    omega
  omega

/-- A token in the list of an operation is produced before its vertex. -/
theorem Drawn.lt_of_produces (ho : s.op? v = some o) (htoken : token ∈ p.tokenList o)
    (hu : p.Produces c path token u) : u < v := by
  obtain ⟨key, hkey, hlook⟩ := hu
  obtain ⟨u', hlook', hlt⟩ := h.lookup_of_mem_producers hp hs ho htoken hkey
  obtain ⟨-, rfl⟩ := Prod.mk.inj (Option.some.inj (hlook.symm.trans hlook'))
  exact hlt

/-! ## Ordered scopes -/

omit hp hs in
/-- A chain leads from one vertex to the next. -/
theorem Drawn.lt_of_edge (huv : s.graph.Edge u v) : v = u + 1 ∧ v < s.size := by
  obtain ⟨rfl, pre, o, post, hops, -, hlt⟩ := (h.edges u v).1 huv
  refine ⟨rfl, Nat.lt_of_lt_of_le hlt ?_⟩
  rw [h.size, hops, List.append_cons pre o post]
  exact place_le_place _ _

theorem Drawn.terminator_last {t : Nat} (ht : s.terminator = some t) : t + 1 = s.size := by
  obtain ⟨pre, o, post, hops, hkind, rfl⟩ := h.terminator t ht
  obtain ⟨pre', hpre'⟩ := hs.finish_last hp (hops ▸ List.mem_append_right _ List.mem_cons_self) hkind
  have hpost : post = [] := by
    rcases append_singleton_eq_append_cons (hpre'.symm.trans hops) with ⟨-, -, hnil⟩ | ⟨m, rfl, -⟩
    · exact hnil
    · have hnodup := hs.nodup_members hp
      rw [hops, List.nodup_append, List.nodup_cons] at hnodup
      exact absurd (List.mem_append_right m List.mem_cons_self) hnodup.2.1.1
  have hlen : (p.events kind o).length = 1 := by simp [events, hkind]
  rw [h.size, hops, hpost, place_append_singleton, hlen]

/-- The edges of a resolved scope lead forwards. -/
theorem Drawn.ordered_resolveScope : (p.resolveScope c path s).Ordered where
  bounded u v huv := by
    rcases edge_resolveScope.1 huv with huv | ⟨hv, -, o, ho, token, htoken, hu⟩
    · have := h.lt_of_edge huv
      change u < s.size ∧ v < s.size
      omega
    · exact ⟨Nat.lt_trans (h.lt_of_produces hp hs ho htoken hu) hv, hv⟩
  forward u v huv := by
    rcases edge_resolveScope.1 huv with huv | ⟨-, -, o, ho, token, htoken, hu⟩
    · have := h.lt_of_edge huv
      omega
    · exact h.lt_of_produces hp hs ho htoken hu
  last t ht := h.terminator_last hp hs ht

omit hp hs in
/-- The calls of a scope are vertices of the hierarchy calls among its members, in order. -/
theorem Drawn.map_op?_calls : s.calls.map s.op? = (p.callsIn (p.members blocks)).map some := by
  have hrange : (List.range s.vertices.length).map (fun v => s.vertices[v]?) = s.vertices.map some :=
    List.ext_getElem? fun i => by
      rw [List.getElem?_map, List.getElem?_map]
      by_cases hi : i < s.vertices.length <;> simp [hi]
  have hcalls : s.calls.map s.op? =
      (s.vertices.filter fun x => x.key.kind = .hierarchyCall).map Vertex.op := by
    have hfilter := congrArg (fun l => (l.filter fun x : Option Vertex =>
      decide (x.map (·.key.kind) = some .hierarchyCall)).map fun x => x.bind Vertex.op) hrange
    rw [List.filter_map, List.filter_map, List.map_map, List.map_map] at hfilter
    refine hfilter.trans (congrArg _ (List.filter_congr fun x _ => ?_))
    simp
  rw [hcalls, callsIn, ← calls_layout, ← h.vertices, List.filter_map, List.map_map]
  rfl

omit hp hs h in
/-- Every scope is drawn from the members of its blocks. -/
theorem Laid.drawn_at (hp : p.Nests) (ht : Laid p c [] none (p.funcs.map (·.body)) t)
    {s : Scope} (h : t.get? path = some s) : ∃ call blocks, p.IsScope call blocks ∧
      Drawn p c path (p.scopeKind call) call (p.members blocks) s := by
  obtain ⟨⟨s, ts⟩, hat, rfl⟩ := Option.map_eq_some_iff.1 h
  obtain ⟨call, blocks, hs, hlaid⟩ := ht.at? hp .host hat
  obtain ⟨drawn, -, -, -⟩ := hlaid
  exact ⟨call, blocks, hs, drawn⟩

omit hs h

theorem Laid.drawn (ht : Laid p c [] none (p.funcs.map (·.body)) t)
    {s : Scope} (h : t.get? path = some s) : ∃ call blocks, p.IsScope call blocks ∧
      Drawn p c path (p.scopeKind call) call (p.members blocks) s :=
  ht.drawn_at hp.nests h

/-- The resolved scopes of a program that builds. -/
theorem Laid.regular_resolve (ht : Laid p c [] none (p.funcs.map (·.body)) t) :
    Regular (p.resolve c t).tree := by
  constructor
  · intro path s ts h
    rw [resolve, Tree.at?_mapWithPath] at h
    obtain ⟨⟨s', ts'⟩, hsub, hnode⟩ := Option.map_eq_some_iff.1 h
    obtain ⟨call, blocks, -, hlaid⟩ := ht.at? hp.nests .host hsub
    obtain ⟨drawn, -, length, -⟩ := hlaid
    rw [Tree.mapWithPath] at hnode
    obtain ⟨rfl, rfl⟩ := Tree.node.inj hnode
    have hcalls := congrArg List.length drawn.map_op?_calls
    rw [List.length_map, List.length_map] at hcalls
    rw [Tree.length_mapAllWithPath, length]
    exact hcalls
  · intro path s h
    rw [resolve, Tree.get?_mapWithPath] at h
    obtain ⟨s', hs', rfl⟩ := Option.map_eq_some_iff.1 h
    obtain ⟨call, blocks, hs, drawn⟩ := ht.drawn hp hs'
    exact drawn.ordered_resolveScope hp hs

end AsyncOrder
