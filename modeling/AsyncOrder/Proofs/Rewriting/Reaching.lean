import AsyncOrder.Proofs.Rewriting.Awaiting
import AsyncOrder.Proofs.Scope.Describing

/-!
# Paths to who waits

In a resolved scope of a scoped program a path leads on within an operation, and from one to another
just where the second waits on the first, by way of others or not (`Scoped.path_iff`):

    s.graph.Path u v ↔ z = y ∧ u < v ∨ TransGen (q.Steps any) z y

So it is with the operations of the resolved tree (`Scoped.reaches_iff`).
-/

namespace AsyncOrder

open Program Relation

variable {p q : Program} {c : Context} {path : Path} {call : Option OpId} {kind : ScopeKind}
variable {blocks : List BlockId} {t : ScopeTree} {s : Scope} {o z : OpId} {u v : Nat}

/-- In one scope of the tree a path leads from the vertex of `a` to that of `b`. -/
def Tree.Reaches (t : ScopeTree) (a b : OpId) : Prop :=
  ∃ path s u v, t.get? path = some s ∧ s.op? u = some a ∧ s.op? v = some b ∧ s.graph.Path u v

/-! ## Vertices of members -/

/-- From a vertex of a member a chain leads to those that follow. -/
theorem Drawn.chain {ops : List OpId} (h : Drawn p c path kind call ops s) (hnodup : ops.Nodup)
    (hu : s.IsOf u o) (hv : s.IsOf v o) (hle : u ≤ v) : ReflTransGen s.graph.Edge u v := by
  obtain ⟨pre, post, hops, hfirst, -⟩ := h.isOf_iff.1 hu
  obtain ⟨-, hlast⟩ := (h.isOf_iff_of_eq hnodup hops).1 hv
  obtain ⟨i, rfl⟩ := Nat.exists_eq_add_of_le hle
  clear hv hle
  induction i with
  | zero => exact .refl
  | succ i ih =>
    exact (ih (by omega)).tail ((h.edges _ _).2 ⟨rfl, pre, o, post, hops, by omega, hlast⟩)

/-- No vertex is part of two members. -/
theorem Drawn.last_ne {ops pre post : List OpId} (h : Drawn p c path kind call ops s)
    (hops : ops = pre ++ z :: post) (hz : p.happens z = true) (ho : s.op? v = some o)
    (hne : z ≠ o) : p.place kind (pre ++ [z]) - 1 ≠ v := by
  rintro rfl
  obtain ⟨b, hb, hevent⟩ := h.event_last hops hz
  obtain ⟨i, hi⟩ := List.mem_iff_getElem?.1 hevent
  rw [Scope.op?, hb] at ho
  exact hne (getElem?_events_op hi ho).1.symm

variable (h : p.Scoped q) (hp : p.WellFormed)
include h hp

theorem Program.Scoped.nodup_members (hs : p.IsScope call blocks) : (q.members blocks).Nodup := by
  rw [h.prunes.members_eq hp.linked]
  exact (hs.nodup_members hp).filter _

/-- Paths lead from what is awaited to who awaits it, from each of its vertices. -/
theorem Program.Scoped.path_of_awaits (hs : p.IsScope call blocks)
    (hd : Drawn q c path kind call (q.members blocks) s) (ho : s.op? v = some o)
    (hz : q.Awaits o z) : (∃ u, s.op? u = some z) ∧
      ∀ u, s.IsOf u z → (q.resolveScope c path s).graph.Path u v := by
  obtain ⟨-, pre, post, hops, -⟩ := hd.op?_eq_some ho
  obtain ⟨homem, holive⟩ := (h.prunes.mem_members hp.linked).1
    (show o ∈ q.members blocks from hops ▸ List.mem_append_right _ List.mem_cons_self)
  obtain ⟨hzmem, hhappens, hlt⟩ := h.awaits_before hp hs homem holive hz
  have hzlive := h.isLive_of_awaits hp holive hz
  rw [← h.prunes.happens] at hhappens
  obtain ⟨pre', post', hops'⟩ := List.append_of_mem
    ((h.prunes.mem_members hp.linked).2 ⟨hzmem, hzlive⟩)
  obtain ⟨key, hexit, hlook⟩ := hd.lookup_exit hops' hhappens
  obtain ⟨token, htoken, -, hz⟩ := hz
  have hvlt : v < s.size := by
    obtain ⟨x, hx, -⟩ := Option.bind_eq_some_iff.1 ho
    exact (List.getElem?_eq_some_iff.1 hx).1
  have hne : z ≠ o := fun heq => Nat.lt_irrefl _ (heq ▸ hlt)
  have hkey := h.mem_producers hp holive (h.used_inView holive htoken) hz hexit
  have hedge : (q.resolveScope c path s).graph.Edge (q.place kind (pre' ++ [z]) - 1) v :=
    edge_resolveScope.2 (Or.inr ⟨hvlt, hd.last_ne hops' hhappens ho hne, o, ho, token, htoken,
      key, hkey, hlook⟩)
  refine ⟨⟨_, hd.op?_place hops' hhappens⟩, fun u hu => .tail' ?_ hedge⟩
  have hnodup := h.nodup_members hp hs
  obtain ⟨hfirst, hlast⟩ := (hd.isOf_iff_of_eq hnodup hops').1 hu
  refine ReflTransGen.mono (fun _ _ he => edge_resolveScope.2 (Or.inl he)) _ _
    (hd.chain hnodup hu ?_ (by omega))
  exact hd.isOf hops' (by omega) (by omega)

theorem Program.Scoped.path_of_steps (hs : p.IsScope call blocks)
    (hd : Drawn q c path kind call (q.members blocks) s) (ho : s.op? v = some o)
    (hz : TransGen (q.Steps fun _ => True) z o) : (∃ u, s.op? u = some z) ∧
      ∀ u, s.IsOf u z → (q.resolveScope c path s).graph.Path u v := by
  induction hz generalizing v with
  | single hzo => exact h.path_of_awaits hp hs hd ho hzo.2
  | tail _ hyo ih =>
    obtain ⟨⟨w, hw⟩, hwv⟩ := h.path_of_awaits hp hs hd ho hyo.2
    obtain ⟨hexists, hpaths⟩ := ih hw
    exact ⟨hexists, fun u hu => (hpaths u hu).trans (hwv w (hd.isOf_of_op? hw))⟩

/-- An edge leads on in a member, or to who waits on it. -/
theorem Program.Scoped.steps_of_edge (hs : p.IsScope call blocks)
    (hd : Drawn q c path kind call (q.members blocks) s)
    (he : (q.resolveScope c path s).graph.Edge u v) (hu : s.IsOf u z) :
    s.IsOf v z ∧ u < v ∨ ∃ o, s.op? v = some o ∧ q.Steps (fun _ => True) z o := by
  rcases edge_resolveScope.1 he with he | ⟨-, -, o, ho, token, htoken, key, hkey, hlook⟩
  · obtain ⟨rfl, pre, o, post, hops, hle, hlt⟩ := (hd.edges u v).1 he
    obtain rfl := hu.unique (hd.isOf hops hle (by omega))
    exact Or.inl ⟨hd.isOf hops (by omega) hlt, Nat.lt_succ_self u⟩
  · obtain ⟨-, pre, post, hops, -⟩ := hd.op?_eq_some ho
    obtain ⟨homem, holive⟩ := (h.prunes.mem_members hp.linked).1
      (show o ∈ q.members blocks from hops ▸ List.mem_append_right _ List.mem_cons_self)
    obtain ⟨w, y, hw, hy, hexit⟩ := exists_of_mem_producers hkey
    have hawaits : q.Awaits o y := ⟨token, htoken, trivial, w, hw, hy⟩
    obtain ⟨hymem, hhappens, -⟩ := h.awaits_before hp hs homem holive hawaits
    rw [← h.prunes.happens] at hhappens
    obtain ⟨pre', post', hops'⟩ := List.append_of_mem ((h.prunes.mem_members hp.linked).2
      ⟨hymem, h.isLive_of_awaits hp holive hawaits⟩)
    obtain ⟨key', hexit', hlook'⟩ := hd.lookup_exit hops' hhappens
    obtain rfl := Option.some.inj (hexit.symm.trans hexit')
    obtain ⟨-, rfl⟩ := Prod.mk.inj (Option.some.inj (hlook.symm.trans hlook'))
    obtain ⟨x, hx, hevent⟩ := hd.event_last hops' hhappens
    obtain rfl := hu.unique ⟨x, hx, owner_of_mem_events hevent⟩
    exact Or.inr ⟨o, ho, holive, hawaits⟩

theorem Program.Scoped.steps_of_path (hs : p.IsScope call blocks)
    (hd : Drawn q c path kind call (q.members blocks) s)
    (hpath : (q.resolveScope c path s).graph.Path u v) (hu : s.IsOf u z) :
    s.IsOf v z ∧ u < v ∨ ∃ o, s.IsOf v o ∧ TransGen (q.Steps fun _ => True) z o := by
  induction hpath with
  | single he =>
    rcases h.steps_of_edge hp hs hd he hu with hv | ⟨o, ho, hzo⟩
    · exact Or.inl hv
    · exact Or.inr ⟨o, hd.isOf_of_op? ho, .single hzo⟩
  | tail _ he ih =>
    rcases ih with ⟨hw, hlt⟩ | ⟨y, hy, hzy⟩
    · rcases h.steps_of_edge hp hs hd he hw with ⟨hv, hlt'⟩ | ⟨o, ho, hzo⟩
      · exact Or.inl ⟨hv, Nat.lt_trans hlt hlt'⟩
      · exact Or.inr ⟨o, hd.isOf_of_op? ho, .single hzo⟩
    · rcases h.steps_of_edge hp hs hd he hy with ⟨hv, -⟩ | ⟨o, ho, hyo⟩
      · exact Or.inr ⟨y, hv, hzy⟩
      · exact Or.inr ⟨o, hd.isOf_of_op? ho, hzy.tail hyo⟩

/-- A path leads from vertex to vertex on in a member, or to who waits on it. -/
theorem Program.Scoped.path_iff {y : OpId} (hs : p.IsScope call blocks)
    (hd : Drawn q c path kind call (q.members blocks) s) (hu : s.IsOf u z) (hv : s.IsOf v y) :
    (q.resolveScope c path s).graph.Path u v ↔
      z = y ∧ u < v ∨ TransGen (q.Steps fun _ => True) z y := by
  have hnodup := h.nodup_members hp hs
  have hon : ∀ {a u v}, s.IsOf u a → s.IsOf v a → u ≤ v →
      ReflTransGen (q.resolveScope c path s).graph.Edge u v := fun hu hv hle =>
    ReflTransGen.mono (fun _ _ he => edge_resolveScope.2 (Or.inl he)) _ _ (hd.chain hnodup hu hv hle)
  constructor
  · intro hpath
    rcases h.steps_of_path hp hs hd hpath hu with ⟨hz, hlt⟩ | ⟨o, ho, hzo⟩
    · exact Or.inl ⟨hz.unique hv, hlt⟩
    · exact Or.inr (ho.unique hv ▸ hzo)
  · rintro (⟨rfl, hlt⟩ | hzy)
    · rcases reflTransGen_iff_eq_or_transGen.1 (hon hu hv (Nat.le_of_lt hlt)) with rfl | hpath
      · exact absurd hlt (Nat.lt_irrefl _)
      · exact hpath
    · obtain ⟨hhappens, pre, post, hops⟩ := hd.exists_of_isOf hv
      have hfirst := hd.op?_place hops hhappens
      have hle := ((hd.isOf_iff_of_eq hnodup hops).1 hv).1
      exact .trans_left ((h.path_of_steps hp hs hd hfirst hzy).2 u hu)
        (hon (hd.isOf_of_op? hfirst) hv hle)

/-- The resolved tree leads from one operation to another just where the second waits on the
first. -/
theorem Program.Scoped.reaches_iff {c' : Context} {t' : ScopeTree}
    (ht' : Laid q c' [] none (q.funcs.map (·.body)) t') (ho : q.isLive o = true)
    (hasync : (p.kind o).isAsync = true) :
    (q.resolve c' t').tree.Reaches z o ↔ TransGen (q.Steps fun _ => True) z o := by
  constructor
  · rintro ⟨path, r, u, v, hget, hu, hv, hpath⟩
    rw [resolve, Tree.get?_mapWithPath] at hget
    obtain ⟨s, hs, rfl⟩ := Option.map_eq_some_iff.1 hget
    obtain ⟨call, blocks, hscope, hd⟩ := ht'.drawn_at (h.prunes.nests hp) hs
    rcases h.steps_of_path hp (h.prunes.isScope hscope) hd hpath (hd.isOf_of_op? hu) with
      ⟨hsame, hlt⟩ | ⟨y, hy, hzy⟩
    · -- an operation has one vertex
      obtain rfl := hsame.unique (hd.isOf_of_op? hv)
      exact absurd hlt (Nat.lt_irrefl _ <| (hd.op?_inj hd hu hv).2 ▸ ·)
    · obtain rfl := hy.unique (hd.isOf_of_op? hv)
      exact hzy
  · intro hz
    have hkind : (p.kind o).isComputePrimitive = false := by
      cases hk : p.kind o <;> simp_all [OpKind.isAsync, OpKind.isComputePrimitive]
    obtain ⟨path, s, call, blocks, hget, hs, hmem, hd⟩ := h.prunes.exists_drawn hp ht' ho hkind
    obtain ⟨pre, post, hops⟩ := List.append_of_mem
      ((h.prunes.mem_members hp.linked).2 ⟨hmem, ho⟩)
    have hv := hd.op?_place hops (by simp [happens, h.prunes.kind, hasync])
    obtain ⟨⟨u, hu⟩, hpaths⟩ := h.path_of_steps hp hs hd hv hz
    refine ⟨path, q.resolveScope c' path s, u, _, ?_, hu, hv, hpaths u (hd.isOf_of_op? hu)⟩
    rw [resolve, Tree.get?_mapWithPath, hget]
    rfl

end AsyncOrder
