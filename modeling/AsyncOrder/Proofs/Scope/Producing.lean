import AsyncOrder.Proofs.Scope.Describing
import Mathlib.Algebra.BigOperators.Group.List.Basic
import Mathlib.Algebra.GroupWithZero.Nat

/-!
# Producers are exact

`Produced` says by induction what produces a token.  In an accepted program that builds

    key ∈ producers token  ↔  Produced token key                              (mem_producers_iff)

each once; and what produces a token in the list of an operation is in the scope of the operation,
before its vertex.  So resolving gives every scope, besides its chains, one edge for each vertex
and each producer of a token in the list of its operation, and counts them (`resolve_exact`).
-/

namespace AsyncOrder

open Program Relation

namespace Program

/-- The token is there once the vertex of the key is done. -/
inductive Produced (p : Program) (c : Context) : ValueId → Key → Prop
  /-- Carried by a loop. -/
  | carried {token : ValueId} {key : Key} {z : OpId} {b : BlockId} {i : Nat} :
      (p.kind z).isLoop = true → b ∈ (p.op z).regions → (p.block b).args[i + 1]? = some token →
        c.exit? z = some key → Produced p c token key
  /-- A result of an asynchronous operation. -/
  | result {token : ValueId} {key : Key} {z : OpId} :
      (p.kind z).isAsync = true → token ∈ (p.op z).results → c.exit? z = some key →
        Produced p c token key
  /-- A result of a loop. -/
  | loop {token : ValueId} {key : Key} {z y : OpId} :
      (p.kind z).isLoop = true → token ∈ (p.op z).results → p.loopYield? z = some y →
        c.exit? y = some key → Produced p c token key
  /-- A result of a conditional, and what one of its branches yields in the same place. -/
  | branch {token w : ValueId} {key : Key} {z y : OpId} {b : BlockId} {i : Nat} :
      p.kind z = .branch → (p.op z).results[i]? = some token → b ∈ (p.op z).regions →
        p.terminator? b = some y → (p.op y).operands[i]? = some w → Produced p c w key →
        Produced p c token key

variable {p : Program} {c : Context} {z y : OpId} {v w token : ValueId} {key : Key} {i : Nat}

/-! ## Origins -/

section

variable (hp : p.Linked)
include hp

theorem Linked.carriedOwner?_eq_some_iff (hv : v.index < p.values.size) :
    p.carriedOwner? v = some z ↔ (p.kind z).isLoop = true ∧
      ∃ b ∈ (p.op z).regions, ∃ i, (p.block b).args[i + 1]? = some v := by
  constructor
  · intro h
    obtain ⟨b, i, harg, howner, hloop, hi⟩ := carriedOwner?_eq_some h
    obtain ⟨i, rfl⟩ : ∃ j, i = j + 1 := ⟨i - 1, by omega⟩
    refine ⟨hloop, b, (hp.mem_regions z b).2 howner, i, (hp.args b (i + 1) v).2 ⟨hv, ?_⟩⟩
    rw [argOwner?] at harg
    split at harg
    · next b' i' horigin =>
      obtain ⟨rfl, rfl⟩ := Prod.mk.inj (Option.some.inj harg)
      exact horigin
    · cases harg
  · rintro ⟨hloop, b, hb, i, hi⟩
    rw [carriedOwner?, argOwner?, ((hp.args b (i + 1) v).1 hi).2]
    simp [(hp.mem_regions z b).1 hb, hloop, Option.filter]

theorem Linked.idxOf?_results (h : (p.op z).results[i]? = some v) :
    (p.op z).results.idxOf? v = some i := by
  have horigin := ((hp.results z i v).1 h).2
  rw [List.idxOf?_eq_some_iff]
  refine ⟨(List.getElem?_eq_some_iff.1 h).1, (List.getElem?_eq_some_iff.1 h).2, fun j hj heq => ?_⟩
  have horigin' := ((hp.results z j v).1 (List.getElem?_eq_some_iff.2 ⟨_, heq⟩)).2
  have := (Origin.result.inj (horigin.symm.trans horigin')).2
  omega

/-! ## One step -/

/-- What an operation makes itself, it produces. -/
theorem Linked.produced_of_producerOp (hv : v.index < p.values.size)
    (hz : p.producerOp? v = some z) (hexit : c.exit? z = some key) : p.Produced c v key := by
  rw [producerOp?] at hz
  split at hz
  · next loop hloop =>
    obtain rfl := Option.some.inj hz
    obtain ⟨hkind, b, hb, i, hi⟩ := (hp.carriedOwner?_eq_some_iff hv).1 hloop
    exact .carried hkind hb hi hexit
  · obtain ⟨a, ha, hz⟩ := Option.bind_eq_some_iff.1 hz
    have hresult := (hp.definingOp?_eq_some_iff hv).1 ha
    split at hz
    · next hkind => exact .loop (by rw [hkind]; rfl) hresult hz hexit
    · split at hz
      · next hasync =>
        obtain rfl := Option.some.inj hz
        exact .result hasync hresult hexit
      · cases hz

/-- Only what is made somewhere is produced. -/
theorem Linked.madeBy_of_produced (h : p.Produced c token key) : ∃ w z,
    ReflTransGen (Leads p.yieldedBy) token w ∧ p.producerOp? w = some z ∧
      c.exit? z = some key := by
  induction h with
  | @carried token key z b i hkind hb hi hexit =>
    have hcarried := (hp.carriedOwner?_eq_some_iff ((hp.args b _ token).1 hi).1).2
      ⟨hkind, b, hb, i, hi⟩
    exact ⟨token, z, .refl, by rw [producerOp?, hcarried], hexit⟩
  | @result token key z hasync hresult hexit =>
    obtain ⟨hdefined, hcarried⟩ := hp.definingOp?_of_result hresult
    refine ⟨token, z, .refl, ?_, hexit⟩
    rw [producerOp?, hcarried, hdefined]
    cases hk : p.kind z <;> simp_all [OpKind.isAsync]
  | @loop token key z y hkind hresult hy hexit =>
    obtain ⟨hdefined, hcarried⟩ := hp.definingOp?_of_result hresult
    refine ⟨token, y, .refl, ?_, hexit⟩
    rw [producerOp?, hcarried, hdefined]
    cases hk : p.kind z <;> simp_all [OpKind.isLoop]
  | @branch token w key z y b i hkind hi hb hy hw _ ih =>
    obtain ⟨w', x, hww', hx, hexit⟩ := ih
    obtain ⟨hdefined, hcarried⟩ := hp.definingOp?_of_result (List.mem_of_getElem? hi)
    exact ⟨w', x, .head (mem_yieldedBy_iff.2
      ⟨hcarried, z, i, b, y, hdefined, hkind, hp.idxOf?_results hi, hb, hy, hw⟩) hww', hx, hexit⟩

end

/-! ## All steps -/

variable (hp : p.WellFormed)
include hp

theorem WellFormed.lt_of_yieldedBy (h : w ∈ p.yieldedBy v) : w.index < p.values.size := by
  obtain ⟨-, z, i, b, y, -, -, -, -, hy, hw⟩ := mem_yieldedBy_iff.1 h
  exact hp.used y (hp.linked.size_of_mem_ops (WellFormed.mem_ops_of_terminator? hy).1) w
    (List.mem_append_left _ (List.mem_of_getElem? hw))

theorem WellFormed.produced_of_leads (hv : v.index < p.values.size)
    (hvw : ReflTransGen (Leads p.yieldedBy) v w) (hz : p.producerOp? w = some z)
    (hexit : c.exit? z = some key) : p.Produced c v key := by
  induction hvw using ReflTransGen.head_induction_on with
  | refl => exact hp.linked.produced_of_producerOp hv hz hexit
  | head hstep _ ih =>
    obtain ⟨-, a, i, b, y, ha, hkind, hi, hb, hy, hw⟩ := mem_yieldedBy_iff.1 hstep
    obtain ⟨hlt, hget, -⟩ := List.idxOf?_eq_some_iff.1 hi
    exact .branch hkind (List.getElem?_eq_some_iff.2 ⟨hlt, hget⟩) hb hy hw
      (ih (hp.lt_of_yieldedBy hstep))

/-- The search for producers finds those of the induction, and no others. -/
theorem WellFormed.mem_producers_iff (hv : token.index < p.values.size) :
    key ∈ p.producers c token ↔ p.Produced c token key := by
  constructor
  · intro h
    obtain ⟨w, z, hw, hz, hexit⟩ := exists_of_mem_producers h
    exact hp.produced_of_leads hv hw hz hexit
  · intro h
    obtain ⟨w, z, hw, hz, hexit⟩ := hp.linked.madeBy_of_produced h
    rw [producers, List.mem_eraseDups, List.mem_filterMap]
    refine ⟨w, ?_, by rw [directProducer?_eq, hz, Option.bind_some, hexit]⟩
    have hmem : ∀ {u : ValueId}, u ∈ (List.range p.values.size).map ValueId.mk ↔
        u.index < p.values.size := by
      intro u
      rw [List.mem_map]
      constructor
      · rintro ⟨i, hi, rfl⟩
        exact List.mem_range.1 hi
      · exact fun hu => ⟨_, List.mem_range.2 hu, rfl⟩
    have hclosed : ∀ a ∈ (List.range p.values.size).map ValueId.mk, ∀ b ∈ p.yieldedBy a,
        b ∈ (List.range p.values.size).map ValueId.mk :=
      fun a _ b hb => hmem.2 (hp.lt_of_yieldedBy hb)
    refine (mem_visit_iff hclosed (fun a ha => ?_) (by simp)).2
      ⟨token, List.mem_singleton_self _, hw⟩
    rw [List.mem_singleton.1 ha]
    exact hmem.2 hv

end Program

/-! ## Resolved scopes -/

variable {p : Program} {c : Context} {path : Path} {call : Option OpId} {kind : ScopeKind}
variable {blocks : List BlockId} {t : ScopeTree} {s : Scope} {o : OpId} {u v : Nat}
variable {token : ValueId} {key : Key}

/-- A chain does not lead to the first vertex of an operation. -/
theorem Drawn.op?_of_edge {ops : List OpId} (h : Drawn p c path kind call ops s)
    (hnodup : ops.Nodup) (huv : (u, v) ∈ s.edges) : s.op? v = none := by
  by_contra hv
  obtain ⟨o, ho⟩ := Option.ne_none_iff_exists'.1 hv
  obtain ⟨rfl, pre, z, post, hops, hle, hlt⟩ := (h.edges u v).1 huv
  obtain rfl := (h.isOf_of_op? ho).unique (h.isOf hops (by omega) hlt)
  obtain ⟨hhappens, pre', post', hops', hplace⟩ := h.op?_eq_some ho
  have hleast := (h.isLeast_iff hnodup hops' hhappens).2 hplace
  exact Nat.not_succ_le_self u (hleast.2 (h.isOf hops hle (by omega)))

/-- The edge from a vertex `u` to a vertex `v` of an operation with a token that `u` produces. -/
def Program.TokenEdge (p : Program) (c : Context) (path : Path) (s : Scope) (u v : Nat) : Prop :=
  ∃ o token key, s.op? v = some o ∧ token ∈ p.tokenList o ∧ p.Produced c token key ∧
    c.lookup? key = some (path, u)

/-- The edges that a scope has more when it is resolved. -/
def Program.addedEdges (p : Program) (c : Context) (path : Path) (s : Scope) : List (Nat × Nat) :=
  (p.resolveScope c path s).edges.drop s.edges.length

theorem resolveScope_eq :
    p.resolveScope c path s = { s with edges := s.edges ++ p.addedEdges c path s } := by
  have happend : ∀ es, (s.addEdges es).edges =
      s.edges ++ (s.addEdges es).edges.drop s.edges.length := fun es => by
    simp [Scope.addEdges, Digraph.addEdges, Scope.graph]
  rw [addedEdges, resolveScope, ← happend]
  rfl

section

variable (hp : p.WellFormed) (hs : p.IsScope call blocks)
variable (h : Drawn p c path kind call (p.members blocks) s)
include hp hs h

omit hs in
theorem Drawn.lt_of_mem_tokenList (ho : s.op? v = some o) (htoken : token ∈ p.tokenList o) :
    token.index < p.values.size := by
  obtain ⟨-, pre, post, hops, -⟩ := h.op?_eq_some ho
  have hmem : o ∈ p.members blocks := hops ▸ List.mem_append_right _ List.mem_cons_self
  exact hp.used o (lt_of_mem_members hp.linked hmem) token (mem_used_of_mem_tokenList htoken)

/-- What produces a token in the list of an operation is in the scope, before its vertex. -/
theorem Drawn.lookup_of_produced (ho : s.op? v = some o) (htoken : token ∈ p.tokenList o)
    (hkey : p.Produced c token key) : ∃ u, c.lookup? key = some (path, u) ∧ u < v :=
  h.lookup_of_mem_producers hp hs ho htoken
    ((hp.mem_producers_iff (h.lt_of_mem_tokenList hp ho htoken)).2 hkey)

theorem Drawn.mem_tokenEdges {e : Nat × Nat} :
    e ∈ s.indices.flatMap (p.edgesTo c path s) ↔ p.TokenEdge c path s e.1 e.2 := by
  rw [List.mem_flatMap]
  constructor
  · rintro ⟨v, -, he⟩
    obtain ⟨rfl, -, o, ho, token, htoken, key, hkey, hlook⟩ := mem_edgesTo.1 he
    exact ⟨o, token, key, ho, htoken,
      (hp.mem_producers_iff (h.lt_of_mem_tokenList hp ho htoken)).1 hkey, hlook⟩
  · rintro ⟨o, token, key, ho, htoken, hkey, hlook⟩
    obtain ⟨u, hlook', hlt⟩ := h.lookup_of_produced hp hs ho htoken hkey
    obtain ⟨-, rfl⟩ := Prod.mk.inj (Option.some.inj (hlook'.symm.trans hlook))
    obtain ⟨x, hx, -⟩ := Option.bind_eq_some_iff.1 ho
    refine ⟨e.2, List.mem_range.2 (List.getElem?_eq_some_iff.1 hx).1,
      mem_edgesTo.2 ⟨rfl, Nat.ne_of_lt hlt, o, ho, token, htoken, key, ?_, hlook⟩⟩
    exact (hp.mem_producers_iff (h.lt_of_mem_tokenList hp ho htoken)).2 hkey

theorem Drawn.lt_of_mem_tokenEdges {e : Nat × Nat}
    (he : e ∈ s.indices.flatMap (p.edgesTo c path s)) : e.1 < s.size := by
  obtain ⟨o, token, key, ho, htoken, hkey, hlook⟩ := (h.mem_tokenEdges hp hs).1 he
  obtain ⟨u, hlook', hlt⟩ := h.lookup_of_produced hp hs ho htoken hkey
  obtain ⟨-, rfl⟩ := Prod.mk.inj (Option.some.inj (hlook'.symm.trans hlook))
  obtain ⟨x, hx, -⟩ := Option.bind_eq_some_iff.1 ho
  exact Nat.lt_trans hlt (List.getElem?_eq_some_iff.1 hx).1

/-- What is added are the edges of tokens, each once. -/
theorem Drawn.addedEdges_exact (hnodup : s.edges.Nodup) :
    (s.edges ++ p.addedEdges c path s).Nodup ∧
      ∀ u v, (u, v) ∈ p.addedEdges c path s ↔ p.TokenEdge c path s u v := by
  have hedges : (p.resolveScope c path s).edges = s.edges ++ p.addedEdges c path s :=
    congrArg Scope.edges resolveScope_eq
  have hall : (s.edges ++ p.addedEdges c path s).Nodup := by
    rw [← hedges, resolveScope]
    exact Digraph.nodup_addEdges hnodup fun e he => h.lt_of_mem_tokenEdges hp hs he
  refine ⟨hall, fun u v => ?_⟩
  have hsplit : (u, v) ∈ s.edges ∨ (u, v) ∈ p.addedEdges c path s ↔
      (u, v) ∈ s.edges ∨ p.TokenEdge c path s u v := by
    rw [← List.mem_append, ← hedges, ← h.mem_tokenEdges hp hs (e := (u, v)), resolveScope]
    exact Digraph.edge_addEdges
  constructor
  · intro hadded
    refine (hsplit.1 (Or.inr hadded)).resolve_left fun hold => ?_
    exact (List.nodup_append.1 hall).2.2 _ hold _ hadded rfl
  · intro htoken
    refine (hsplit.2 (Or.inr htoken)).resolve_left fun hold => ?_
    obtain ⟨o, -, -, ho, -⟩ := htoken
    rw [h.op?_of_edge (hs.nodup_members hp) hold] at ho
    cases ho

end

/-! ## The resolved tree -/

theorem Tree.totals_snd (t : ScopeTree) :
    t.totals.2 = (t.entries.map fun e => e.2.edges.length).sum := by
  have key : ∀ (l : List Scope) (n : Nat × Nat),
      (l.foldl (fun n s => (n.1 + s.size, n.2 + s.edges.length)) n).2 =
        n.2 + (l.map fun s => s.edges.length).sum := by
    intro l
    induction l with
    | nil => exact fun n => (Nat.add_zero _).symm
    | cons s l ih =>
      intro n
      rw [List.foldl_cons, ih, List.map_cons, List.sum_cons, Nat.add_assoc]
  refine (key t.toList (0, 0)).trans ?_
  rw [Nat.zero_add, toList, List.map_map]
  rfl

theorem resolve_eq : p.resolve c t =
    ⟨t.mapWithPath (fun path s => { s with edges := s.edges ++ p.addedEdges c path s }) [],
      (t.entries.map fun e => (p.addedEdges c e.1 e.2).length).sum⟩ := by
  have hmap : p.resolveScope c = fun path s =>
      { s with edges := s.edges ++ p.addedEdges c path s } :=
    funext fun path => funext fun s => resolveScope_eq
  rw [resolve, hmap]
  congr 1
  rw [Tree.totals_snd, Tree.totals_snd, Tree.entries_mapWithPath, List.map_map]
  have hsum : (t.entries.map ((fun e : Path × Scope => e.2.edges.length) ∘ fun e =>
      (e.1, { e.2 with edges := e.2.edges ++ p.addedEdges c ([] ++ e.1) e.2 }))).sum =
        (t.entries.map fun e => e.2.edges.length).sum +
          (t.entries.map fun e => (p.addedEdges c e.1 e.2).length).sum := by
    rw [← List.sum_map_add]
    exact congrArg List.sum (List.map_congr_left fun e _ => List.length_append)
  rw [hsum, Nat.add_sub_cancel_left]

/-- Resolving the scopes of an accepted program finds just what produces each token, always in the
scope of its consumer, and adds one edge for each pair of the two. -/
theorem resolve_exact {source : String} (hsource : readProgram source = .ok p)
    (hbuild : p.scopeTree = .ok (t, c)) :
    (∀ token : ValueId, token.index < p.values.size → (p.producers c token).Nodup ∧
      ∀ key, key ∈ p.producers c token ↔ p.Produced c token key) ∧
    (∀ path s v o token key, t.get? path = some s → s.op? v = some o → token ∈ p.tokenList o →
      p.Produced c token key → ∃ u, c.lookup? key = some (path, u) ∧ u < v) ∧
    p.resolve c t =
      ⟨t.mapWithPath (fun path s => { s with edges := s.edges ++ p.addedEdges c path s }) [],
        (t.entries.map fun e => (p.addedEdges c e.1 e.2).length).sum⟩ ∧
    ∀ path s, t.get? path = some s →
      (∀ u v, (u, v) ∈ s.edges ↔ v = u + 1 ∧ ∃ o, s.IsOf u o ∧ s.IsOf v o) ∧
      (s.edges ++ p.addedEdges c path s).Nodup ∧
      ∀ u v, (u, v) ∈ p.addedEdges c path s ↔ p.TokenEdge c path s u v := by
  have hp := wellFormed_of_readProgram hsource
  have ht := laid_of_scopeTree hp hbuild
  have hdescribes := describes_of_readProgram hsource hbuild
  refine ⟨fun token hv => ⟨?_, fun key => hp.mem_producers_iff hv⟩,
    fun path s v o token key hs ho htoken hkey => ?_, resolve_eq, fun path s hs => ?_⟩
  · rw [producers]
    exact nodup_eraseDups _
  · obtain ⟨call, blocks, hscope, hdrawn⟩ := ht.drawn hp hs
    exact hdrawn.lookup_of_produced hp hscope ho htoken hkey
  · obtain ⟨call, blocks, hscope, hdrawn⟩ := ht.drawn hp hs
    have hs := hdescribes.scopes s (Tree.mem_toList_iff.2 ⟨path, hs⟩)
    exact ⟨hs.edges, hdrawn.addedEdges_exact hp hscope hs.nodup_edges⟩

/-- A join that waits on a conditional in a conditional, and on what two of its branches yield. -/
def innerBranch : String := "func @f(%c: index) \x7b
  %a = join
  %r = if %c \x7b
    %s = if %c \x7b
      %b = join [%a]
      yield %b
    \x7d else \x7b
      yield %a
    \x7d
    yield %s
  \x7d else \x7b
    yield %a
  \x7d
  %z = join [%r, %a]
\x7d
"

theorem resolve_exact_innerBranch : ∃ p t c, readProgram innerBranch = .ok p ∧
    p.scopeTree = .ok (t, c) ∧ (p.resolve c t).added = 3 ∧
    p.addedEdges c [] t.root = [(1, 2), (2, 3), (1, 3)] ∧
    (∀ u v, p.TokenEdge c [] t.root u v ↔ (u, v) ∈ [(1, 2), (2, 3), (1, 3)]) := by
  obtain ⟨p, t, c, hsource, hbuild, htest⟩ := passes_iff.1
    (show passes innerBranch (fun p t c => (p.resolve c t).added = 3 &&
      p.addedEdges c [] t.root = [(1, 2), (2, 3), (1, 3)]) = true by decide +kernel)
  rw [Bool.and_eq_true, decide_eq_true_eq, decide_eq_true_eq] at htest
  obtain ⟨hadded, hedges⟩ := htest
  obtain ⟨-, -, -, hall⟩ := resolve_exact hsource hbuild
  refine ⟨p, t, c, hsource, hbuild, hadded, hedges, fun u v => ?_⟩
  rw [← hedges, (hall [] t.root rfl).2.2]

end AsyncOrder
