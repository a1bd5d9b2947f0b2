import AsyncOrder.Proofs.Rewriting.Elevation
import AsyncOrder.Proofs.Scope.Coverage

/-!
# Tokens that are filled in

An edge of a closed scope leads to the vertex of an asynchronous operation from the start, or from
a vertex that produces one of the tokens on which the operation waits.  The token filled in for
such an edge is visible at the operation, although the token on which the operation waited may be
another one:

    (v, o) a waiter, token filled in at v  →  p.Visible o token
-/

namespace AsyncOrder

open Program Relation

variable {p : Program} {c : Context} {path : Path} {call : Option OpId} {kind : ScopeKind}
variable {blocks : List BlockId} {s r : Scope} {o x z e : OpId} {u v : Nat} {token w : ValueId}

/-! ## Tokens of vertices -/

theorem Program.tokenList_of_isAsync (ho : (p.kind o).isAsync = true) :
    p.tokenList o = p.deps o := by
  cases hk : p.kind o <;> simp_all [tokenList, OpKind.isAsync]

/-- The token of a vertex is told by its event. -/
theorem Program.vertexToken?_congr {a b : Vertex} (h : a.event = b.event) :
    p.vertexToken? a o = p.vertexToken? b o := by
  simp only [Vertex.event, Event.mk.injEq] at h
  obtain ⟨hkind, -, hop, howner⟩ := h
  simp only [vertexToken?, hkind, hop, howner]

theorem Program.op_of_mem_events {event : Event} (he : event ∈ p.events kind z)
    (hz : p.kind z ≠ .compute) : event.op = some z := by
  obtain ⟨_, _, rest, heq, hrest⟩ := events_eq_cons kind (happens_of_mem_events he)
  rw [heq] at he
  rcases List.mem_cons.1 he with rfl | he
  · rfl
  · exact absurd (hrest event he).2.2.2 hz

section

variable {a : Vertex} (ha : a.event ∈ p.events kind z)
include ha

theorem Program.vertexToken?_loop (hz : (p.kind z).isLoop = true) : p.vertexToken? a o =
    (p.carriedArg? z 0).filter fun v => (p.valueType v).isToken := by
  have hkind : a.key.kind = .controlLoop := (kind_of_mem_events ha).2.2.1.2 hz
  have hop : a.op = some z := op_of_mem_events ha fun h => by rw [h] at hz; cases hz
  rw [vertexToken?, hkind, hop]
  rfl

theorem Program.vertexToken?_yield (hz : p.kind z = .yield) :
    p.vertexToken? a o = (p.parentOp? z).bind fun loop => p.elevatedToken? loop o := by
  have hkind : a.key.kind = .terminator := (kind_of_mem_events ha).2.2.2.1.2 hz
  have hop : a.op = some z := op_of_mem_events ha fun h => by rw [h] at hz; cases hz
  rw [vertexToken?, hkind, hop]
  rfl

theorem Program.vertexToken?_async (hz : (p.kind z).isAsync = true) :
    p.vertexToken? a o = p.elevatedToken? z o := by
  obtain ⟨-, hfinish, hloop, hyield, hstart⟩ := kind_of_mem_events ha
  have howner : a.owner = some z := owner_of_mem_events ha
  rw [vertexToken?, howner]
  cases hkind : a.key.kind with
  | start => exact absurd hkind hstart
  | controlLoop =>
    have := hloop.1 hkind
    cases hk : p.kind z <;> simp_all [OpKind.isAsync, OpKind.isLoop]
  | hierarchyTerminator =>
    rw [hfinish.1 hkind] at hz
    cases hz
  | terminator =>
    rw [hyield.1 hkind] at hz
    cases hz
  | _ => rfl

end

/-! ## Completion tokens -/

theorem Program.WellFormed.completionToken?_eq_some (hp : p.WellFormed) (hz : z.index < p.ops.size)
    (h : p.completionToken? z = some token) :
    token ∈ (p.op z).results ∧ p.valueType token = .token := by
  rw [completionToken?] at h
  split at h
  · cases h
  · next first rest hresults =>
    have hmem : first ∈ (p.op z).results := hresults ▸ List.mem_cons_self
    split at h
    · split at h
      · next hfirst =>
        obtain rfl := Option.some.inj h
        exact ⟨hmem, ValueType.isToken_iff.1 hfirst⟩
      · cases h
    · split at h
      · next hfirst =>
        obtain rfl := Option.some.inj h
        exact ⟨hmem, ValueType.isToken_iff.1 hfirst⟩
      · cases h
    · split at h
      · next hasync =>
        obtain rfl := Option.some.inj h
        refine ⟨hmem, ?_⟩
        have hshape := (hp.laidOut z hz).2.2
        rw [hresults] at hshape
        cases hk : p.kind z <;> simp_all [OpKind.Shape, OpKind.isAsync]
        obtain ⟨-, body, -, -, htype, -⟩ := hshape
        exact htype
      · cases h

/-- The token of what stands for `z` is visible at the consumer. -/
theorem Program.WellFormed.visible_elevatedToken? (hp : p.WellFormed) (ho : o.index < p.ops.size)
    (he : p.Precedes e o) (hz : p.Under p.isBranch e z) (h : p.elevatedToken? z o = some token) :
    p.Visible o token ∧ p.valueType token = .token := by
  rw [elevatedToken?] at h
  split at h
  · cases h
  · rw [hp.linked.elevated_eq ho he hz] at h
    obtain ⟨hmem, htype⟩ := hp.completionToken?_eq_some (hp.linked.lt_of_precedes he) h
    exact ⟨he.visible hmem, htype⟩

/-! ## Tokens of producers -/

/-- The last vertex of a member stands for one of its events. -/
theorem Drawn.event_last {ops pre post : List OpId} (h : Drawn p c path kind call ops s)
    (hops : ops = pre ++ z :: post) (hz : p.happens z = true) :
    ∃ b, s.vertices[p.place kind (pre ++ [z]) - 1]? = some b ∧ b.event ∈ p.events kind z := by
  obtain ⟨-, b, -, hb, -, -⟩ := h.ends pre z post hops hz
  refine ⟨b, hb, ?_⟩
  have hpos : 0 < (p.events kind z).length := by
    rw [List.length_pos_iff, ne_eq, events_eq_nil_iff, hz]
    exact Bool.noConfusion
  have hevent : (p.layout kind ops)[p.place kind (pre ++ [z]) - 1]? = some b.event := by
    rw [← h.vertices, List.getElem?_map, hb, Option.map_some]
  have hlast : (p.events kind z)[(p.events kind z).length - 1]? =
      some (p.events kind z)[(p.events kind z).length - 1] :=
    List.getElem?_eq_getElem (by omega)
  have hplace : p.place kind (pre ++ [z]) - 1 =
      p.place kind pre + ((p.events kind z).length - 1) := by
    rw [place_append_singleton]
    omega
  have hne : p.place kind (pre ++ [z]) - 1 ≠ 0 := by
    rw [hplace, place]
    omega
  rw [(getElem?_layout_iff hne).2 ⟨pre, z, post, _, hops, hplace, hlast⟩] at hevent
  exact Option.some.inj hevent ▸ List.getElem_mem _

variable (hp : p.WellFormed) (hs : p.IsScope call blocks)
variable (h : Drawn p c path kind call (p.members blocks) s)
include hp hs h

/-- A vertex that produces a token of an operation has a token that is visible there. -/
theorem Drawn.visible_vertexToken? {a : Vertex} (ho : s.op? v = some o)
    (htoken : token ∈ p.tokenList o) (hu : p.Produces c path token u)
    (ha : s.vertices[u]? = some a) (hw : p.vertexToken? a o = some w) :
    p.Visible o w ∧ p.valueType w = .token := by
  obtain ⟨key, hkey, hlook⟩ := hu
  obtain ⟨w', z, hleads, hz, hexit⟩ := exists_of_mem_producers hkey
  obtain ⟨-, pre, post, hops, -⟩ := h.op?_eq_some ho
  have hmem : o ∈ p.members blocks := hops ▸ List.mem_append_right _ List.mem_cons_self
  have holt := lt_of_mem_members hp.linked hmem
  have hvisible := hp.visible o holt token (mem_used_of_mem_tokenList htoken)
  obtain ⟨hzmem, hhappens, -⟩ := hs.producer_before hp hmem hvisible hleads hz
  obtain ⟨pre', post', hops'⟩ := List.append_of_mem hzmem
  obtain ⟨key', hexit', hlook'⟩ := h.lookup_exit hops' hhappens
  obtain rfl := Option.some.inj (hexit.symm.trans hexit')
  obtain ⟨-, rfl⟩ := Prod.mk.inj (Option.some.inj (hlook.symm.trans hlook'))
  obtain ⟨b, hb, hevent⟩ := h.event_last hops' hhappens
  obtain rfl := Option.some.inj (ha.symm.trans hb)
  have hoffers := hp.offers_of_leads hvisible hleads
  have hresult : ∀ {z}, p.definingOp? w' = some z → ∃ e, p.Precedes e o ∧
      p.Under p.isBranch e z := by
    intro z hz
    rcases hoffers with ⟨a, -, harg⟩ | ⟨e, z', he, hz', hv⟩
    · rw [hp.linked.definingOp?_of_arg harg] at hz
      cases hz
    · obtain rfl := Option.some.inj ((hp.linked.definingOp?_of_result hv).1.symm.trans hz)
      exact ⟨e, he, hz'⟩
  rw [producerOp?] at hz
  split at hz
  · -- carried by a loop: so is the token, by the same one
    next loop hloop =>
    obtain rfl := Option.some.inj hz
    obtain ⟨body, i, harg, howner, hkind, -⟩ := carriedOwner?_eq_some hloop
    rw [vertexToken?_loop hevent hkind, Option.filter_eq_some_iff] at hw
    obtain ⟨hcarried, htype⟩ := hw
    rw [carriedArg?, if_pos hkind] at hcarried
    obtain ⟨body', hbody', hcarried⟩ := Option.bind_eq_some_iff.1 hcarried
    obtain ⟨body'', hregions, hbody'', -⟩ := hp.regions_eq_singleton (hp.linked.owner_lt howner)
      (r := .loop) (by cases hk : p.kind loop <;> simp_all [Lowering.bodyRegions, OpKind.isLoop])
    obtain rfl := Option.some.inj (hbody'.symm.trans hbody'')
    obtain rfl : body = body' := by
      have := (hp.linked.mem_regions loop body).2 howner
      rwa [hregions, List.mem_singleton] at this
    rcases hoffers with ⟨x, hx, hv⟩ | ⟨e, z', -, -, hv⟩
    · obtain ⟨j, harg', -⟩ := hp.linked.argOwner?_of_mem hv
      obtain ⟨rfl, -⟩ := Prod.mk.inj (Option.some.inj (harg.symm.trans harg'))
      refine ⟨visible_iff.2 ⟨x, hx, Or.inl (List.mem_of_getElem? hcarried)⟩, ?_⟩
      exact ValueType.isToken_iff.1 htype
    · rw [(hp.linked.definingOp?_of_result hv).2] at hloop
      cases hloop
  · obtain ⟨y, hy, hz⟩ := Option.bind_eq_some_iff.1 hz
    obtain ⟨e, he, hye⟩ := hresult hy
    split at hz
    · -- the yield of a loop stands for the loop
      next _ hkind =>
      have hloop : (p.kind y).isLoop = true := by rw [hkind]; rfl
      have hylt := (Under.index_lt hp.linked hye (hp.linked.lt_of_precedes he))
      obtain ⟨z', hz', hnested, hyield⟩ := hp.loopYield?_eq_some hylt hloop
      obtain rfl := Option.some.inj (hz'.symm.trans hz)
      rw [vertexToken?_yield hevent hyield, (hp.linked.mem_nested_iff.1 hnested).2] at hw
      exact hp.visible_elevatedToken? holt he hye hw
    · split at hz
      · next hasync =>
        obtain rfl := Option.some.inj hz
        rw [vertexToken?_async hevent hasync] at hw
        exact hp.visible_elevatedToken? holt he hye hw
      · cases hz

/-! ## Edges to waiters -/

omit hp hs in
/-- Only the start and the producers of its tokens lead to an operation that waits. -/
theorem Drawn.edge_close_resolveScope (ho : s.op? v = some o) (hasync : (p.kind o).isAsync = true)
    (huv : (p.resolveScope c path s).close.graph.Edge u v) :
    u = Scope.start ∨ ∃ token ∈ p.deps o, p.Produces c path token u := by
  obtain ⟨-, pre, post, hops, rfl⟩ := h.op?_eq_some ho
  rcases Scope.edge_close.1 huv with huv | huv | huv
  · rcases edge_resolveScope.1 huv with huv | ⟨-, -, o', ho', token, htoken, hu⟩
    · -- chains do not lead to the first event of a member
      exfalso
      obtain ⟨hnext, pre', z, post', hops', hle, hlt⟩ := (h.edges u _).1 huv
      have hevent : ∃ e, (p.layout kind (p.members blocks))[p.place kind pre]? = some e ∧
          e.op = some o := by
        obtain ⟨x, hx, hop⟩ := Option.bind_eq_some_iff.1 ho
        exact ⟨x.event, by rw [← h.vertices, List.getElem?_map, hx, Option.map_some], hop⟩
      obtain ⟨e, he, hop⟩ := hevent
      rw [place_append_singleton] at hlt
      have hi : p.place kind pre - p.place kind pre' < (p.events kind z).length := by omega
      have hz : (p.layout kind (p.members blocks))[p.place kind pre]? =
          some (p.events kind z)[p.place kind pre - p.place kind pre'] :=
        (getElem?_layout_iff (by omega)).2 ⟨pre', z, post', _, hops',
          (Nat.add_sub_cancel' (by omega)).symm, List.getElem?_eq_getElem hi⟩
      obtain rfl := Option.some.inj (he.symm.trans hz)
      have := (getElem?_events_op (List.getElem?_eq_getElem hi) hop).2
      omega
    · obtain rfl := Option.some.inj (ho.symm.trans ho')
      exact Or.inr ⟨token, tokenList_of_isAsync hasync ▸ htoken, hu⟩
  · exfalso
    obtain ⟨hterm, -⟩ := Scope.mem_endEdges.1 huv
    obtain ⟨pre', z, post', hops', hkind, hplace⟩ := h.terminator _ hterm
    have hz := h.op?_place hops' (by simp [happens, hkind])
    rw [← hplace] at hz
    obtain rfl := Option.some.inj (ho.symm.trans hz)
    rw [hkind] at hasync
    cases hasync
  · exact Or.inl (Scope.mem_startEdges.1 huv).1

/-- What is filled in is visible, where all edges are edges of the closed scope. -/
theorem Drawn.visible_of_mem_fillTokens
    (hvertices : r.vertices.map Vertex.event = s.vertices.map Vertex.event)
    (hedges : ∀ u v, r.graph.Edge u v → (p.resolveScope c path s).close.graph.Edge u v)
    (ho : s.op? v = some o) (hasync : (p.kind o).isAsync = true) (hw : w ∈ p.fillTokens r v o) :
    p.Visible o w ∧ p.valueType w = .token := by
  rw [fillTokens, List.mem_filterMap] at hw
  obtain ⟨u, hu, hfilled⟩ := hw
  obtain ⟨a, ha, hw⟩ := Option.bind_eq_some_iff.1 (Option.filter_eq_some_iff.1 hfilled).1
  have hevent : s.vertices[u]?.map Vertex.event = some a.event := by
    rw [← List.getElem?_map, ← hvertices, List.getElem?_map, ha, Option.map_some]
  obtain ⟨b, hb, hab⟩ := Option.map_eq_some_iff.1 hevent
  rw [vertexToken?_congr hab.symm] at hw
  have huv : r.graph.Edge u v := by
    rw [sources, List.mem_filter, decide_eq_true_eq, Digraph.mem_predecessors] at hu
    exact hu.2
  rcases h.edge_close_resolveScope ho hasync (hedges u v huv) with rfl | ⟨token, htoken, hprod⟩
  · exfalso
    have hstart : s.vertices[0]?.map Vertex.event = some startEvent := by
      rw [← List.getElem?_map, h.vertices, layout]
      rfl
    rw [Scope.start] at hb
    rw [hb, Option.map_some, Option.some.injEq, Vertex.event, startEvent, Event.mk.injEq] at hstart
    simp [vertexToken?, hstart.1] at hw
  · rw [← tokenList_of_isAsync hasync] at htoken
    exact h.visible_vertexToken? hp hs ho htoken hprod hb hw

end AsyncOrder
