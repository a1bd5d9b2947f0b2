import AsyncOrder.Proofs.Scope.Coverage
import AsyncOrder.Proofs.Scope.Recording
import Mathlib.Order.Bounds.Basic

/-!
# The tree describes the program

The scope tree and the context of a program that builds, told from the program alone
(`describes_of_readProgram`).  An operation belongs to the innermost hierarchy call or compute
around it.  With `ops` the operations that belong to the call of a scope, in document order,

    vertices = start :: ops.flatMap roles
    edges    = from each vertex to the next, where both are of one operation
    children = the scopes of the calls among the vertices, in order

and the context knows the tree:

    lookup? key = some (path, v)  ↔  vertex v of the scope at path has the key
    key.seq < count key.kind      ↔  some vertex has the key
    entry? o, exit? o             =  the keys of the least and the greatest vertex of o
-/

namespace AsyncOrder

open Program Relation

/-! ## What the program says -/

/-- Kind, operation and owner of a vertex. -/
abbrev VertexRole := VertexKind × Option OpId × Option OpId

def Event.role (e : Event) : VertexRole := (e.kind, e.op, e.owner)

def Vertex.role (x : Vertex) : VertexRole := (x.key.kind, x.op, x.owner)

namespace Program

variable (p : Program)

/-- The innermost hierarchy call or compute around an operation. -/
def scopeOf (o : OpId) : Option OpId :=
  (p.ancestors o).find? fun z => (p.kind z).isHierarchy || p.kind z = .compute

/-- The kind of the vertex of an operation that has just one. -/
def vertexKind? (o : OpId) : Option VertexKind :=
  match p.kind o with
  | .transfer _ => some .transfer
  | .put _ | .get _ => some .channel
  | .join => some .barrier
  | .loop _ => some .controlLoop
  | .hierarchy .. => some .hierarchyCall
  | .finish => some .hierarchyTerminator
  | .yield => if p.inLoop o then some .terminator else none
  | _ => none

/-- The roles of the vertices of an operation.  A compute has as many as its body has operations,
and only the first of them has the compute as its operation. -/
def roles (o : OpId) : List VertexRole :=
  if p.kind o = .compute then
    (List.range (p.computeBody o).length).map fun i =>
      (.compute, if i = 0 then some o else none, some o)
  else (p.vertexKind? o).toList.map fun kind => (kind, some o, some o)

/-- The operations that belong to a call, in document order. -/
def opsOf (call : Option OpId) : List OpId := p.walk.filter fun o => p.scopeOf o = call

end Program

/-- The scope is what the operations that belong to its call make of it. -/
structure Scope.Describes (p : Program) (s : Scope) : Prop where
  kind : s.kind = p.scopeKind s.call
  vertices : s.vertices.map Vertex.role = (.start, none, none) :: (p.opsOf s.call).flatMap p.roles
  edges : ∀ u v, (u, v) ∈ s.edges ↔ v = u + 1 ∧ ∃ o, s.IsOf u o ∧ s.IsOf v o
  nodup_edges : s.edges.Nodup

/-- The tree has a scope for the host and, below each scope, one for each of its calls; the
context finds every vertex, and both ends of every operation. -/
structure Describes (p : Program) (t : ScopeTree) (c : Context) : Prop where
  host : (t.get? []).map Scope.call = some none
  children : ∀ path s i, t.get? path = some s →
    (t.get? (path ++ [i])).map Scope.call = s.calls[i]?.map s.op?
  scopes : ∀ s ∈ t.toList, s.Describes p
  lookup : ∀ key path v, c.lookup? key = some (path, v) ↔
    ∃ x, t.vertex? path v = some x ∧ x.key = key
  unique : ∀ path path' v v' x x', t.vertex? path v = some x → t.vertex? path' v' = some x' →
    x.key = x'.key → path = path' ∧ v = v'
  numbers : ∀ key, key.seq < c.counters.count key.kind ↔
    ∃ path v x, t.vertex? path v = some x ∧ x.key = key
  entry : ∀ o key, c.entry? o = some key ↔ ∃ path s v x, t.get? path = some s ∧
    IsLeast {u | s.IsOf u o} v ∧ s.vertices[v]? = some x ∧ x.key = key
  exit : ∀ o key, c.exit? o = some key ↔ ∃ path s v x, t.get? path = some s ∧
    IsGreatest {u | s.IsOf u o} v ∧ s.vertices[v]? = some x ∧ x.key = key

variable {p : Program} {t : ScopeTree} {c : Context} {path : Path} {call : Option OpId}
variable {kind : ScopeKind} {blocks : List BlockId} {s : Scope} {ops pre post : List OpId}
variable {o z : OpId} {v : Nat} {x : Vertex} {key : Key}

/-! ## Members -/

section

variable (hp : p.WellFormed)
include hp

theorem Program.WellFormed.scopeOf_of_parent (ho : o.index < p.ops.size)
    (h : p.parentOp? o = some z) : p.scopeOf o =
      if (p.kind z).isHierarchy || p.kind z = .compute then some z else p.scopeOf z := by
  rw [scopeOf, hp.linked.ancestors_of_parent ho h, List.find?_cons]
  split <;> simp_all [scopeOf]

omit hp in
theorem Program.not_holder_of_shares (h : p.shares z = true) :
    ((p.kind z).isHierarchy || p.kind z = .compute) = false := by
  rw [shares, Bool.or_eq_true, decide_eq_true_eq] at h
  cases hk : p.kind z <;> simp_all [OpKind.isLoop, OpKind.isHierarchy]

theorem Program.IsScope.scopeOf_eq (hs : p.IsScope call blocks) (ho : o ∈ p.members blocks) :
    p.scopeOf o = call := by
  obtain ⟨n, hn⟩ : ∃ n, p.ops.size - o.index ≤ n := ⟨_, Nat.le_refl _⟩
  -- outwards, since what an operation lies in has the greater number
  induction n generalizing o with
  | zero =>
    have := lt_of_mem_members hp.linked ho
    omega
  | succ n ih =>
    have holt := lt_of_mem_members hp.linked ho
    rcases hs.parent_cases hp ho with ⟨-, hparent⟩ | ⟨z, hz, hshares, hoz, hparent⟩
    · cases hs with
      | host => rw [scopeOf, ancestors_of_none holt hparent, List.find?_nil]
      | body _ hkind => rw [hp.scopeOf_of_parent holt hparent, hkind, Bool.true_or, if_pos rfl]
    · have := hp.linked.nested_lt hoz
      rw [hp.scopeOf_of_parent holt hparent, not_holder_of_shares hshares, ih hz (by omega)]
      rfl

theorem Program.IsScope.mem_members_of_scopeOf (hs : p.IsScope call blocks)
    (ho : o.index < p.ops.size) (hcall : p.scopeOf o = call) : o ∈ p.members blocks := by
  obtain ⟨n, hn⟩ : ∃ n, p.ops.size - o.index ≤ n := ⟨_, Nat.le_refl _⟩
  -- outwards, since what an operation lies in has the greater number
  induction n generalizing o with
  | zero => omega
  | succ n ih =>
    have hblocks := hp.linked.blocksOps_lt blocks
    cases hparent : p.parentOp? o with
    | none =>
      rw [scopeOf, ancestors_of_none ho hparent, List.find?_nil] at hcall
      subst hcall
      cases hs
      have hbody : (p.op o).parent ∈ p.funcs.map (·.body) :=
        (hp.mem_bodies _).2 ⟨hp.linked.parent_lt ho, hparent⟩
      exact mem_tour_self hp.linked hblocks
        (List.mem_flatMap.2 ⟨_, hbody, hp.linked.mem_ops_parent ho⟩)
    | some z =>
      have hnested : o ∈ p.nested z := hp.linked.mem_nested_iff.2 ⟨ho, hparent⟩
      have hlt := hp.linked.nested_lt hnested
      have hz : z.index < p.ops.size := hp.linked.owner_lt hparent
      rw [hp.scopeOf_of_parent ho hparent] at hcall
      rcases cases_of_mem_nested hp hnested with hshares | hkind | hkind
      · rw [not_holder_of_shares hshares] at hcall
        exact mem_tour_of_under hp.linked hblocks (ih hz hcall (by omega))
          (.single ⟨hshares, hnested⟩)
      · rw [hkind, Bool.true_or, if_pos rfl] at hcall
        subst hcall
        cases hs
        rw [hp.nested_hierarchy hz hkind] at hnested
        exact mem_tour_self hp.linked hblocks hnested
      · rw [if_pos (by simp [hkind])] at hcall
        subst hcall
        cases hs with
        | body _ h => rw [hkind] at h; cases h

/-- The members of a scope are the operations that belong to its call. -/
theorem Program.IsScope.members_eq (hs : p.IsScope call blocks) :
    p.members blocks = p.opsOf call := by
  have hsublist : (p.members blocks).Sublist p.walk := by
    refine (tour_sublist_of_enters (fun _ _ => rfl) _).trans ?_
    rw [walk_eq_tour]
    cases hs with
    | host => exact List.Sublist.refl _
    | @body h hlt hkind =>
      have hwalk : h ∈ p.walk := hp.mem_walk.2 hlt
      rw [walk_eq_tour] at hwalk
      change (p.tour _ (p.blocksOps _)).Sublist _
      rw [← hp.nested_hierarchy hlt hkind]
      exact (tour_nested_sublist hp.linked hlt rfl).trans
        (tour_sublist_of_mem hp.linked (hp.linked.blocksOps_lt _) hwalk)
  rw [opsOf, ← filter_eq_filter_of_sublist hsublist hp.nodup_walk fun o ho hcall =>
    hs.mem_members_of_scopeOf hp (hp.mem_walk.1 ho) (of_decide_eq_true hcall)]
  refine (List.filter_eq_self.2 fun o ho => ?_).symm
  exact decide_eq_true (hs.scopeOf_eq hp ho)

/-! ## Vertices -/

theorem Program.WellFormed.computeBody_ne_nil (ho : o.index < p.ops.size)
    (hkind : p.kind o = .compute) : p.computeBody o ≠ [] := by
  obtain ⟨b, -, hbody, -, hended⟩ := hp.regions_eq_singleton ho (r := .compute) (by rw [hkind]; rfl)
  obtain ⟨y, hy⟩ := Option.isSome_iff_exists.1 hended
  have hmem := (WellFormed.mem_ops_of_terminator? hy).1
  rw [computeBody, hbody]
  exact List.ne_nil_of_mem hmem

theorem Program.WellFormed.role_events (kind : ScopeKind) (ho : o.index < p.ops.size) :
    (p.events kind o).map Event.role = p.roles o := by
  by_cases hkind : p.kind o = .compute
  · obtain ⟨first, rest, hbody⟩ := List.exists_cons_of_ne_nil (hp.computeBody_ne_nil ho hkind)
    have hrange : List.range (rest.length + 1) = 0 :: (List.range rest.length).map Nat.succ :=
      List.range_succ_eq_map
    rw [events, roles, if_pos hkind, hkind, computeEvents, hbody, List.length_cons, hrange]
    simp only [List.map_cons, List.map_map]
    refine congrArg _ (List.ext_getElem (by simp) fun i _ _ => ?_)
    simp [Event.role]
  · rw [events, roles, if_neg hkind, vertexKind?]
    cases hk : p.kind o <;> simp_all only [Event.role, List.map_cons, List.map_nil,
      not_true_eq_false, Option.toList_some, Option.toList_none]
    cases p.inLoop o <;> rfl

end

/-! ## Ends -/

namespace Drawn

variable (h : Drawn p c path kind call ops s)
include h

theorem isOf_iff : s.IsOf v o ↔ ∃ pre post, ops = pre ++ o :: post ∧
    p.place kind pre ≤ v ∧ v < p.place kind (pre ++ [o]) := by
  constructor
  · rintro ⟨x, hx, howner⟩
    have hevent : (p.layout kind ops)[v]? = some x.event := by
      rw [← h.vertices, List.getElem?_map, hx, Option.map_some]
    by_cases hv : v = 0
    · subst hv
      have hstart : startEvent = x.event := Option.some.inj hevent
      exact absurd ((congrArg Event.owner hstart).trans howner) (by simp [startEvent])
    · obtain ⟨pre, z, post, i, hops, rfl, hi⟩ := (getElem?_layout_iff hv).1 hevent
      obtain rfl : z = o := Option.some.inj
        ((owner_of_mem_events (List.mem_of_getElem? hi)).symm.trans howner)
      have hlt := (List.getElem?_eq_some_iff.1 hi).1
      refine ⟨pre, post, hops, Nat.le_add_right _ _, ?_⟩
      rw [place_append_singleton]
      omega
  · rintro ⟨pre, post, hops, hle, hlt⟩
    exact h.isOf hops hle hlt

variable (hnodup : ops.Nodup)
include hnodup

theorem isOf_iff_of_eq (hops : ops = pre ++ o :: post) :
    s.IsOf v o ↔ p.place kind pre ≤ v ∧ v < p.place kind (pre ++ [o]) := by
  rw [h.isOf_iff]
  constructor
  · rintro ⟨pre', post', hops', hle, hlt⟩
    have hnot : ∀ {pre post}, ops = pre ++ o :: post → o ∉ pre ∧ o ∉ post := by
      rintro pre post rfl
      have hpart := List.nodup_append.1 hnodup
      exact ⟨fun hmem => hpart.2.2 o hmem o List.mem_cons_self rfl,
        (List.nodup_cons.1 hpart.2.1).1⟩
    obtain ⟨rfl, -, -⟩ := (List.append_cons_inj_of_notMem (hnot hops').1 (hnot hops').2).1
      (hops'.symm.trans hops)
    exact ⟨hle, hlt⟩
  · exact fun hv => ⟨pre, post, hops, hv⟩

theorem isLeast_iff (hops : ops = pre ++ o :: post) (ho : p.happens o = true) :
    IsLeast {u | s.IsOf u o} v ↔ v = p.place kind pre := by
  have hof := fun {u} => h.isOf_iff_of_eq hnodup (v := u) hops
  have hfirst : s.IsOf (p.place kind pre) o := h.isOf_of_op? (h.op?_place hops ho)
  constructor
  · rintro ⟨hv, hle⟩
    exact Nat.le_antisymm (hle hfirst) (hof.1 hv).1
  · rintro rfl
    exact ⟨hfirst, fun u hu => (hof.1 hu).1⟩

theorem isGreatest_iff (hops : ops = pre ++ o :: post) (ho : p.happens o = true) :
    IsGreatest {u | s.IsOf u o} v ↔ v = p.place kind (pre ++ [o]) - 1 := by
  have hof := fun {u} => h.isOf_iff_of_eq hnodup (v := u) hops
  have hfirst := hof.1 (h.isOf_of_op? (h.op?_place hops ho))
  have hlast : s.IsOf (p.place kind (pre ++ [o]) - 1) o := hof.2 (by omega)
  constructor
  · rintro ⟨hv, hle⟩
    have := hof.1 hv
    have : p.place kind (pre ++ [o]) - 1 ≤ v := hle hlast
    omega
  · rintro rfl
    exact ⟨hlast, fun u hu => by have := hof.1 hu; omega⟩

omit hnodup in
/-- An operation that has a vertex happens. -/
theorem exists_of_isOf (hv : s.IsOf v o) :
    p.happens o = true ∧ ∃ pre post, ops = pre ++ o :: post := by
  obtain ⟨pre, post, hops, hle, hlt⟩ := h.isOf_iff.1 hv
  refine ⟨?_, pre, post, hops⟩
  by_contra hnot
  rw [place_append_singleton, (events_eq_nil_iff kind).2 (Bool.eq_false_iff.2 hnot)] at hlt
  exact Nat.lt_irrefl _ (Nat.lt_of_le_of_lt hle hlt)

omit h hnodup in
/-- A scope is described by its members. -/
theorem describes (hp : p.WellFormed) (hs : p.IsScope call blocks)
    (hd : Drawn p c path (p.scopeKind call) call (p.members blocks) s)
    (hneat : s.Neat p (p.members blocks)) : s.Describes p where
  kind := hd.kind_eq.trans (congrArg p.scopeKind hd.call_eq.symm)
  vertices := by
    have hroles : s.vertices.map Vertex.role =
        (p.layout (p.scopeKind call) (p.members blocks)).map Event.role := by
      rw [← hd.vertices, List.map_map]
      rfl
    rw [hroles, layout, List.map_cons, List.map_flatMap, hd.call_eq, ← hs.members_eq hp]
    exact congrArg _ (List.flatMap_congr fun o ho =>
      hp.role_events _ (lt_of_mem_members hp.linked ho))
  edges u v := by
    rw [hd.edges]
    refine and_congr_right fun huv => ?_
    constructor
    · rintro ⟨pre, o, post, hops, hle, hlt⟩
      exact ⟨o, hd.isOf hops hle (by omega), hd.isOf hops (by omega) hlt⟩
    · rintro ⟨o, hu, hv⟩
      obtain ⟨pre, post, hops, hle, -⟩ := hd.isOf_iff.1 hu
      exact ⟨pre, o, post, hops, hle,
        ((hd.isOf_iff_of_eq (hs.nodup_members hp) hops).1 hv).2⟩
  nodup_edges := hneat.nodup_edges

end Drawn

/-! ## Trees -/

theorem mem_of_find?_fst {α β : Type} [DecidableEq α] {l : List (α × β)} {a : α} {e : α × β}
    (h : l.find? (·.1 = a) = some e) : e ∈ l ∧ e.1 = a :=
  ⟨List.mem_of_find?_eq_some h, by simpa using List.find?_some h⟩

/-- What is on record is in the tree. -/
theorem Records.exists_vertex (h : Records [] .empty c t) (hlook : c.lookup? key = some (path, v)) :
    ∃ x, t.vertex? path v = some x ∧ x.key = key := by
  obtain ⟨e, he, hplace⟩ := Option.map_eq_some_iff.1 hlook
  obtain ⟨hmem, hkey⟩ := mem_of_find?_fst he
  rcases h.places e hmem with he | ⟨path', v', x, rfl, hx⟩
  · exact absurd he List.not_mem_nil
  · obtain ⟨rfl, rfl⟩ := Prod.mk.inj hplace
    exact ⟨x, hx, hkey⟩

theorem Laid.call_children_at (hp : p.Nests) (ht : Laid p c [] none (p.funcs.map (·.body)) t)
    (hs : t.get? path = some s) (i : Nat) :
    (t.get? (path ++ [i])).map Scope.call = s.calls[i]?.map s.op? := by
  obtain ⟨⟨s, ts⟩, hat, rfl⟩ := Option.map_eq_some_iff.1 hs
  obtain ⟨call, blocks, -, hlaid⟩ := ht.at? hp .host hat
  obtain ⟨drawn, -, length, children⟩ := hlaid
  have hcalls : s.calls[i]?.map s.op? = (p.callsIn (p.members blocks))[i]?.map some := by
    rw [← List.getElem?_map, drawn.map_op?_calls, List.getElem?_map]
  rw [Tree.get?_child hat, Tree.root, hcalls, Option.map_map]
  cases hi : (p.callsIn (p.members blocks))[i]? with
  | none =>
    have hle := List.getElem?_eq_none_iff.1 hi
    rw [List.getElem?_eq_none (length ▸ hle)]
    rfl
  | some h =>
    have hlt := (List.getElem?_eq_some_iff.1 hi).1
    have hchild := List.getElem?_eq_getElem (length ▸ hlt : i < ts.length)
    have hlaid := children i h _ hi hchild
    rw [hchild]
    generalize ts[i] = child at hlaid
    cases hlaid with
    | node drawn => exact congrArg some drawn.call_eq

section

variable (hp : p.WellFormed) (ht : Laid p c [] none (p.funcs.map (·.body)) t)
include hp ht

theorem Laid.call_children (hs : t.get? path = some s) (i : Nat) :
    (t.get? (path ++ [i])).map Scope.call = s.calls[i]?.map s.op? :=
  ht.call_children_at hp.nests hs i

theorem Laid.lookup_vertex (hx : t.vertex? path v = some x) :
    c.lookup? x.key = some (path, v) := by
  obtain ⟨s, hs, hx⟩ := Tree.vertex?_eq_some.1 hx
  obtain ⟨call, blocks, -, hdrawn⟩ := ht.drawn hp hs
  exact hdrawn.places v x hx

theorem Laid.lookup?_eq_some_iff (hrecords : Records [] .empty c t) :
    c.lookup? key = some (path, v) ↔ ∃ x, t.vertex? path v = some x ∧ x.key = key := by
  refine ⟨hrecords.exists_vertex, ?_⟩
  rintro ⟨x, hx, rfl⟩
  exact ht.lookup_vertex hp hx

/-- A scope with a vertex of an operation has both ends of it. -/
theorem Laid.ends_of_isOf (hs : t.get? path = some s) (hv : s.IsOf v o) : ∃ u w a b,
    (∀ v, IsLeast {u | s.IsOf u o} v ↔ v = u) ∧ (∀ v, IsGreatest {u | s.IsOf u o} v ↔ v = w) ∧
      s.vertices[u]? = some a ∧ s.vertices[w]? = some b ∧
      c.entry? o = some a.key ∧ c.exit? o = some b.key := by
  obtain ⟨call, blocks, hscope, hdrawn⟩ := ht.drawn hp hs
  obtain ⟨hhappens, pre, post, hops⟩ := hdrawn.exists_of_isOf hv
  have hnodup := hscope.nodup_members hp
  obtain ⟨a, b, ha, hb, hentry, hexit⟩ := hdrawn.ends pre o post hops hhappens
  exact ⟨_, _, a, b, fun v => hdrawn.isLeast_iff hnodup hops hhappens,
    fun v => hdrawn.isGreatest_iff hnodup hops hhappens, ha, hb, hentry, hexit⟩

/-- Ends are on record for operations that have a vertex. -/
theorem Laid.isOf_of_find?_ends (hrecords : Records [] .empty c t) {e : OpId × Key × Key}
    (he : c.ends.find? (·.1 = o) = some e) : ∃ path s v, t.get? path = some s ∧ s.IsOf v o := by
  obtain ⟨hmem, rfl⟩ := mem_of_find?_fst he
  rcases hrecords.ends e hmem with he | ⟨path, v, x, hx, hop⟩
  · exact absurd he List.not_mem_nil
  · obtain ⟨s, hs, hx⟩ := Tree.vertex?_eq_some.1 hx
    obtain ⟨call, blocks, -, hdrawn⟩ := ht.drawn hp hs
    exact ⟨path, s, v, hs, hdrawn.isOf_of_op? (Option.bind_eq_some_iff.2 ⟨x, hx, hop⟩)⟩

theorem Laid.entry?_eq_some_iff (hrecords : Records [] .empty c t) :
    c.entry? o = some key ↔ ∃ path s v x, t.get? path = some s ∧
      IsLeast {u | s.IsOf u o} v ∧ s.vertices[v]? = some x ∧ x.key = key := by
  constructor
  · intro h
    obtain ⟨e, he, -⟩ := Option.map_eq_some_iff.1 h
    obtain ⟨path, s, v, hs, hv⟩ := ht.isOf_of_find?_ends hp hrecords he
    obtain ⟨u, -, a, -, hleast, -, ha, -, hentry, -⟩ := ht.ends_of_isOf hp hs hv
    exact ⟨path, s, u, a, hs, (hleast u).2 rfl, ha, Option.some.inj (hentry.symm.trans h)⟩
  · rintro ⟨path, s, v, x, hs, hv, hx, rfl⟩
    obtain ⟨u, -, a, -, hleast, -, ha, -, hentry, -⟩ := ht.ends_of_isOf hp hs hv.1
    obtain rfl := (hleast v).1 hv
    rw [hentry, Option.some.inj (ha.symm.trans hx)]

theorem Laid.exit?_eq_some_iff (hrecords : Records [] .empty c t) :
    c.exit? o = some key ↔ ∃ path s v x, t.get? path = some s ∧
      IsGreatest {u | s.IsOf u o} v ∧ s.vertices[v]? = some x ∧ x.key = key := by
  constructor
  · intro h
    obtain ⟨e, he, -⟩ := Option.map_eq_some_iff.1 h
    obtain ⟨path, s, v, hs, hv⟩ := ht.isOf_of_find?_ends hp hrecords he
    obtain ⟨-, w, -, b, -, hgreatest, -, hb, -, hexit⟩ := ht.ends_of_isOf hp hs hv
    exact ⟨path, s, w, b, hs, (hgreatest w).2 rfl, hb, Option.some.inj (hexit.symm.trans h)⟩
  · rintro ⟨path, s, v, x, hs, hv, hx, rfl⟩
    obtain ⟨-, w, -, b, -, hgreatest, -, hb, -, hexit⟩ := ht.ends_of_isOf hp hs hv.1
    obtain rfl := (hgreatest v).1 hv
    rw [hexit, Option.some.inj (hb.symm.trans hx)]

end

/-- The scope tree and the context of an accepted program that builds describe it. -/
theorem describes_of_readProgram {source : String} (hsource : readProgram source = .ok p)
    (hbuild : p.scopeTree = .ok (t, c)) : Describes p t c := by
  have hp := wellFormed_of_readProgram hsource
  obtain ⟨ht, hfresh⟩ := hp.nests.built hbuild
  obtain ⟨hrecords, hnumbered, hneat⟩ := hp.nests.left hbuild
  refine ⟨?_, fun path s i hs => ht.call_children hp hs i, fun s hs => ?_,
    fun key path v => ht.lookup?_eq_some_iff hp hrecords,
    fun path path' v v' x x' hx hx' hkey => ?_, fun key => ⟨fun hlt => ?_, ?_⟩,
    fun o key => ht.entry?_eq_some_iff hp hrecords, fun o key => ht.exit?_eq_some_iff hp hrecords⟩
  · cases ht with
    | node drawn => exact congrArg some drawn.call_eq
  · obtain ⟨path, hs⟩ := Tree.mem_toList_iff.1 hs
    obtain ⟨call, blocks, hscope, hdrawn⟩ := ht.drawn hp hs
    have hclean := hneat path s hs
    rw [hdrawn.call_eq, ← hscope.blocks_eq] at hclean
    exact Drawn.describes hp hscope hdrawn hclean
  · have hlook := ht.lookup_vertex hp hx
    rw [hkey, ht.lookup_vertex hp hx'] at hlook
    obtain ⟨hpath, hv⟩ := Prod.mk.inj (Option.some.inj hlook)
    exact ⟨hpath.symm, hv.symm⟩
  · obtain ⟨e, he, rfl⟩ := hnumbered.recorded key hlt
    rcases hrecords.places e he with he | ⟨path, v, x, rfl, hx⟩
    · exact absurd he List.not_mem_nil
    · exact ⟨path, v, x, hx, rfl⟩
  · rintro ⟨path, v, x, hx, rfl⟩
    obtain ⟨e, he, -⟩ := Option.map_eq_some_iff.1 (ht.lookup_vertex hp hx)
    obtain ⟨hmem, hkey⟩ := mem_of_find?_fst he
    exact hkey ▸ hfresh.seq e hmem

/-- A compute of three steps, and a loop in a herd. -/
def stepsAndLoop : String := "func @f(%n: index) \x7b
  %t, %v = compute \x7b
    %c = const 1
    %d = addi %c, %c
    yield %d
  \x7d
  %h = herd [%t] args(%k = %n) \x7b
    %j = join
    %l = for %i = %k to %k step %k iter(%q = %j) \x7b
      yield %q
    \x7d
    end
  \x7d
\x7d
"

theorem describes_stepsAndLoop : ∃ p t c, readProgram stepsAndLoop = .ok p ∧
    p.scopeTree = .ok (t, c) ∧ Describes p t c ∧
    t.toList.map (fun s => s.vertices.map Vertex.role) =
      [[(.start, none, none), (.compute, some ⟨3⟩, some ⟨3⟩), (.compute, none, some ⟨3⟩),
          (.compute, none, some ⟨3⟩), (.hierarchyCall, some ⟨8⟩, some ⟨8⟩)],
        [(.start, none, none), (.barrier, some ⟨4⟩, some ⟨4⟩), (.controlLoop, some ⟨6⟩, some ⟨6⟩),
          (.terminator, some ⟨5⟩, some ⟨5⟩), (.hierarchyTerminator, some ⟨7⟩, some ⟨7⟩)]] ∧
    t.toList.map Scope.edges = [[(1, 2), (2, 3)], []] := by
  obtain ⟨p, t, c, hsource, hbuild, htest⟩ := passes_iff.1
    (show passes stepsAndLoop (fun p t c =>
      t.toList.map (fun s => s.vertices.map Vertex.role) =
        [[(.start, none, none), (.compute, some ⟨3⟩, some ⟨3⟩), (.compute, none, some ⟨3⟩),
            (.compute, none, some ⟨3⟩), (.hierarchyCall, some ⟨8⟩, some ⟨8⟩)],
          [(.start, none, none), (.barrier, some ⟨4⟩, some ⟨4⟩),
            (.controlLoop, some ⟨6⟩, some ⟨6⟩), (.terminator, some ⟨5⟩, some ⟨5⟩),
            (.hierarchyTerminator, some ⟨7⟩, some ⟨7⟩)]] &&
        t.toList.map Scope.edges = [[(1, 2), (2, 3)], []]) = true by decide +kernel)
  simp only [Bool.and_eq_true, decide_eq_true_eq] at htest
  exact ⟨p, t, c, hsource, hbuild, describes_of_readProgram hsource hbuild, htest.1, htest.2⟩

end AsyncOrder
