import AsyncOrder.Proofs.Rewriting.Exhausting
import AsyncOrder.Proofs.Rewriting.Reaching

/-!
# What survives dead computes

Sweeping dead computes away is exact (`removeDeadComputes_exact`).  With `q` what is left of an
accepted `p`:

    nothing in q is dead, however its uses are found
    erasing dead computes of p one at a time, in any order and until none is dead, erases the
        computes that are gone from q, and leaves what is alike to q
    nothing that lives in q uses a result of what is gone
    from vertex i of a to vertex j of b a path leads in the resolved scopes of q
        ↔ one leads in those of p                               (a, b live in q)

A survivor has the vertices it had, since no compute of a program that builds holds another one
(`DropsAll.isLive_of_computeBody`).
-/

namespace AsyncOrder

open Program Relation

variable {p q r : Program} {c c' : Context} {path : Path} {call : Option OpId} {kind : ScopeKind}
variable {t t' : ScopeTree} {s : Scope} {ops ds : List OpId} {a b d o x z : OpId} {i j u v : Nat}

/-! ## Numbered vertices -/

/-- `v` is vertex number `i` of the operation, counted from the one that has it as operation. -/
def Scope.IsNth (s : Scope) (o : OpId) (i v : Nat) : Prop :=
  ∃ u, s.op? u = some o ∧ v = u + i ∧ s.IsOf v o

/-- In one scope of the tree a path leads from vertex `i` of `a` to vertex `j` of `b`. -/
def Tree.ReachesNth (t : ScopeTree) (a : OpId) (i : Nat) (b : OpId) (j : Nat) : Prop :=
  ∃ path s u v, t.get? path = some s ∧ s.IsNth a i u ∧ s.IsNth b j v ∧ s.graph.Path u v

theorem Drawn.isNth_iff (h : Drawn p c path kind call ops s) (hnodup : ops.Nodup) :
    s.IsNth o i v ↔ ∃ pre post, ops = pre ++ o :: post ∧ v = p.place kind pre + i ∧
      i < (p.events kind o).length := by
  constructor
  · rintro ⟨u, hu, rfl, hv⟩
    obtain ⟨-, pre, post, hops, rfl⟩ := h.op?_eq_some hu
    refine ⟨pre, post, hops, rfl, ?_⟩
    have hlt := ((h.isOf_iff_of_eq hnodup hops).1 hv).2
    rwa [place_append_singleton, Nat.add_lt_add_iff_left] at hlt
  · rintro ⟨pre, post, hops, rfl, hi⟩
    have hhappens : p.happens o = true := by
      by_contra hnot
      rw [(events_eq_nil_iff kind).2 (Bool.eq_false_iff.2 hnot)] at hi
      exact Nat.not_lt_zero _ hi
    refine ⟨_, h.op?_place hops hhappens, rfl, h.isOf hops (Nat.le_add_right _ _) ?_⟩
    rwa [place_append_singleton, Nat.add_lt_add_iff_left]

/-- Paths between numbered vertices, told without the tree. -/
theorem Program.Scoped.reachesNth_iff (h : p.Scoped q) (hp : p.WellFormed)
    (ht' : Laid q c' [] none (q.funcs.map (·.body)) t') (ha : q.isLive a = true)
    (hb : q.isLive b = true) : (q.resolve c' t').tree.ReachesNth a i b j ↔
      ∃ call blocks, p.IsScope call blocks ∧ a ∈ p.members blocks ∧ b ∈ p.members blocks ∧
        i < (q.events (q.scopeKind call) a).length ∧ j < (q.events (q.scopeKind call) b).length ∧
        (a = b ∧ i < j ∨ TransGen (q.Steps fun _ => True) a b) := by
  -- what paths are in a scope with both vertices
  have hscope : ∀ {path s call blocks u v}, p.IsScope call blocks →
      Drawn q c' path (q.scopeKind call) call (q.members blocks) s → s.IsNth a i u →
      s.IsNth b j v → ((q.resolveScope c' path s).graph.Path u v ↔
        a = b ∧ i < j ∨ TransGen (q.Steps fun _ => True) a b) := by
    intro path s call blocks u v hs hd hu hv
    obtain ⟨u', hu', rfl, hofu⟩ := hu
    obtain ⟨v', hv', rfl, hofv⟩ := hv
    rw [h.path_iff hp hs hd hofu hofv]
    refine or_congr_left (and_congr_right fun heq => ?_)
    subst heq
    obtain rfl := (hd.op?_inj hd hu' hv').2
    exact Nat.add_lt_add_iff_left
  constructor
  · rintro ⟨path, s', u, v, hget, hu, hv, hpath⟩
    rw [resolve, Tree.get?_mapWithPath] at hget
    obtain ⟨s, hs, rfl⟩ := Option.map_eq_some_iff.1 hget
    obtain ⟨call, blocks, hscoped, hd⟩ := ht'.drawn_at (h.prunes.nests hp) hs
    have hscoped := h.prunes.isScope hscoped
    have hnodup := h.nodup_members hp hscoped
    obtain ⟨pre, post, hopsa, -, hi⟩ := (hd.isNth_iff hnodup).1 hu
    obtain ⟨pre', post', hopsb, -, hj⟩ := (hd.isNth_iff hnodup).1 hv
    have hmem : ∀ {o pre post}, q.members blocks = pre ++ o :: post → o ∈ p.members blocks :=
      fun hops => ((h.prunes.mem_members hp.linked).1
        (hops ▸ List.mem_append_right _ List.mem_cons_self)).1
    exact ⟨call, blocks, hscoped, hmem hopsa, hmem hopsb, hi, hj, (hscope hscoped hd hu hv).1 hpath⟩
  · rintro ⟨call, blocks, hscoped, hamem, hbmem, hi, hj, hsteps⟩
    obtain ⟨path, tree, hat, hlaid⟩ := h.prunes.exists_scope hp ht' hscoped fun z hz =>
      (h.prunes.isLive_call hp hscoped hamem ha z hz).1
    obtain ⟨hd, -, -, -⟩ := hlaid
    next s ts =>
    have hnodup := h.nodup_members hp hscoped
    obtain ⟨pre, post, hopsa⟩ := List.append_of_mem ((h.prunes.mem_members hp.linked).2 ⟨hamem, ha⟩)
    obtain ⟨pre', post', hopsb⟩ :=
      List.append_of_mem ((h.prunes.mem_members hp.linked).2 ⟨hbmem, hb⟩)
    have hu := (hd.isNth_iff hnodup).2 ⟨pre, post, hopsa, rfl, hi⟩
    have hv := (hd.isNth_iff hnodup).2 ⟨pre', post', hopsb, rfl, hj⟩
    refine ⟨path, q.resolveScope c' path s, _, _, ?_, hu, hv, (hscope hscoped hd hu hv).2 hsteps⟩
    rw [resolve, Tree.get?_mapWithPath, Tree.get?_of_at? hat]
    rfl

/-! ## Survivors -/

namespace Program

/-- How many vertices an operation has is told by its kind, its loop and the length of its body. -/
theorem length_events_congr {k k' : ScopeKind} (hkind : q.kind o = p.kind o)
    (hloop : q.inLoop o = p.inLoop o)
    (hbody : p.kind o = .compute → q.computeBody o = p.computeBody o) :
    (q.events k o).length = (p.events k' o).length := by
  rw [events, events, hkind]
  cases hk : p.kind o <;> try rfl
  case compute =>
    simp only [computeEvents, hbody hk]
    cases p.computeBody o <;> simp
  case yield => simp only [hloop]

theorem mem_nested_of_computeBody (hx : x ∈ p.computeBody o) : x ∈ p.nested o := by
  rw [computeBody] at hx
  cases hb : p.body? o with
  | none =>
    rw [hb] at hx
    cases hx
  | some b =>
    rw [hb] at hx
    exact List.mem_flatMap.2 ⟨b, List.mem_of_head? hb, hx⟩

/-- The computes of a program that builds hold primitives only. -/
theorem WellFormed.isComputePrimitive_of_mem (hp : p.WellFormed)
    (ht : Laid p c [] none (p.funcs.map (·.body)) t) (hkind : p.kind o = .compute)
    (hx : x ∈ p.computeBody o) : (p.kind x).isComputePrimitive = true := by
  have hforeign := foreign?_eq_none_of_laid hp ht o
  rw [foreign?, if_pos hkind, List.find?_eq_none] at hforeign
  simpa using hforeign x hx

/-- A body that lives on is the body it was. -/
theorem Prunes.computeBody_eq (h : p.Prunes r) (hp : p.Linked)
    (hbody : ∀ x ∈ p.computeBody o, r.isLive x = true) : r.computeBody o = p.computeBody o := by
  have hsame : r.body? o = p.body? o := by rw [body?, body?, h.regions]
  rw [computeBody] at hbody
  rw [computeBody, computeBody, hsame]
  cases hb : p.body? o with
  | none => rfl
  | some b =>
    rw [hb, Option.map_some, Option.getD_some] at hbody
    have hlive : ∀ x ∈ (r.block b).ops, r.isLive x = true := fun x hx =>
      hbody x ((h.ops b).subset hx)
    rw [Option.map_some, Option.map_some, Option.getD_some, Option.getD_some,
      ← List.filter_eq_self.2 hlive, ← List.filter_eq_self.2 hbody, h.filter_ops hp]

/-- What survives with its body has as many vertices as it had. -/
theorem Prunes.length_events (h : p.Prunes r) (hp : p.Linked) (k k' : ScopeKind)
    (hbody : p.kind o = .compute → ∀ x ∈ p.computeBody o, r.isLive x = true) :
    (r.events k o).length = (p.events k' o).length := by
  refine length_events_congr (h.kind o) ?_ fun hkind => h.computeBody_eq hp (hbody hkind)
  rw [inLoop, inLoop, h.parentOp?]
  simp only [h.kind]

/-- Paths between vertices stay the same where the waits and the bodies do. -/
theorem Scoped.reachesNth_congr (h : p.Scoped r) (hp : p.WellFormed)
    (ht : Laid p c [] none (p.funcs.map (·.body)) t)
    (ht' : Laid r c' [] none (r.funcs.map (·.body)) t') (ha : r.isLive a = true)
    (hb : r.isLive b = true)
    (hsteps : TransGen (r.Steps fun _ => True) a b ↔ TransGen (p.Steps fun _ => True) a b)
    (hbody : ∀ o, r.isLive o = true → p.kind o = .compute →
      ∀ x ∈ p.computeBody o, r.isLive x = true) :
    (r.resolve c' t').tree.ReachesNth a i b j ↔ (p.resolve c t).tree.ReachesNth a i b j := by
  have hprunes := h.prunes
  rw [h.reachesNth_iff hp ht' ha hb, hp.scoped.reachesNth_iff hp ht
    (hp.linked.isLive (hprunes.lt ha)) (hp.linked.isLive (hprunes.lt hb))]
  refine exists_congr fun call => exists_congr fun blocks => ?_
  rw [hsteps, hprunes.length_events hp.linked _ (p.scopeKind call) (hbody a ha),
    hprunes.length_events hp.linked _ (p.scopeKind call) (hbody b hb)]

namespace DropsAll

variable (h : p.DropsAll p ds r) (hp : p.WellFormed)
variable (ht : Laid p c [] none (p.funcs.map (·.body)) t)
include h hp ht

/-- The body of a compute that survives lives on. -/
theorem isLive_of_computeBody (ho : r.isLive o = true) (hkind : p.kind o = .compute)
    (hx : x ∈ p.computeBody o) : r.isLive x = true := by
  obtain ⟨hlt, hparent⟩ := hp.linked.mem_nested_iff.1 (mem_nested_of_computeBody hx)
  refine h.isLive_iff.2 ⟨hp.linked.isLive hlt, fun d hd hunder => ?_⟩
  rcases ReflTransGen.cases_tail hunder with rfl | ⟨y, hdy, -, hyx⟩
  · have hprimitive := hp.isComputePrimitive_of_mem ht hkind hx
    rw [(h.of_mem hd).2] at hprimitive
    cases hprimitive
  · obtain rfl := Option.some.inj ((hp.linked.mem_nested_iff.1 hyx).2.symm.trans hparent)
    exact (h.isLive_iff.1 ho).2 d hd hdy

omit h in
/-- Survivors wait on one another as they did, by way of others or not. -/
theorem transGen_steps_iff (h : p.DropsAll q ds r) (ha : r.isLive a = true)
    (hb : r.isLive b = true) :
    TransGen (r.Steps fun _ => True) a b ↔ TransGen (q.Steps fun _ => True) a b := by
  induction h with
  | nil hq hr halike =>
    rw [steps_eq hq hr hp halike.isLive (fun o ho _ => halike.operands o (halike.isLive o ▸ ho))
      fun o v ho => halike.deps o v (halike.isLive o ▸ ho)]
  | @cons q q' r d token ds hq hd hdrop hrest ih =>
    have hback : ∀ {o}, r.isLive o = true → q'.isLive o = true := fun ho =>
      (hrest.isLive_iff.1 ho).1
    exact (ih ha hb).trans
      ((hdrop.contracts hp hq hd (fun _ => true) ht).transGen_iff (hback ha) (hback hb))

/-- Paths between vertices of survivors are the paths there were. -/
theorem reachesNth_iff (ht' : Laid r c' [] none (r.funcs.map (·.body)) t')
    (ha : r.isLive a = true) (hb : r.isLive b = true) :
    (r.resolve c' t').tree.ReachesNth a i b j ↔ (p.resolve c t).tree.ReachesNth a i b j :=
  h.scoped_right.reachesNth_congr hp ht ht' ha hb (transGen_steps_iff hp ht h ha hb)
    fun _ ho hkind _ hx => h.isLive_of_computeBody hp ht ho hkind hx

end DropsAll

/-! ## Programs that are read -/

/-- Removal of dead computes leaves what erasing them one at a time leaves, in any order. -/
theorem removeDeadComputes_exact {source : String} (hsource : readProgram source = .ok p) :
    let q := p.removeDeadComputes.1
    (∀ limit, p.ops.size < limit → sweepDeadComputes limit p = p.removeDeadComputes) ∧
    q.deadComputes q.useMap = [] ∧
    (∀ ds r, p.OneByOne ds r →
      ∃ ds' r', p.OneByOne (ds ++ ds') r' ∧ r'.deadComputes r'.useMap = []) ∧
    (∀ ds r, p.OneByOne ds r → r.deadComputes r.useMap = [] →
      ds.Nodup ∧ ds.length = p.removeDeadComputes.2 ∧ q.Alike r ∧
      ∀ o, o ∈ ds ↔ p.kind o = .compute ∧ p.isLive o = true ∧ q.isLive o = false) ∧
    (∀ o z, q.isLive o = true → q.isLive z = false → ∀ v ∈ (q.op z).results, v ∉ q.used o) ∧
    ∀ t c, p.scopeTree = .ok (t, c) → ∃ t' c', q.scopeTree = .ok (t', c') ∧
      ∀ a i b j, q.isLive a = true → q.isLive b = true →
        ((q.resolve c' t').tree.ReachesNth a i b j ↔
          (p.resolve c t).tree.ReachesNth a i b j) := by
  have hp := wellFormed_of_readProgram hsource
  have hscoped := hp.scoped
  obtain ⟨ds, hrun, hlength, hend⟩ := hscoped.removeDeadComputes_run hp
  have hq := hrun.scoped_right
  refine ⟨fun limit hlimit => hscoped.sweepDeadComputes_eq hp hlimit,
    hscoped.deadComputes_removeDeadComputes hp, fun ds r hone => ?_, fun ds' r hone hdone => ?_,
    fun o z ho hz v hv hused => ?_, fun t c hbuild => ?_⟩
  · obtain ⟨ds', r', hone', hdone⟩ := (hone.dropsAll hp hscoped).scoped_right.exists_oneByOne hp
    exact ⟨ds', r', hone.append hone', hdone⟩
  · have hrun' := hone.dropsAll hp hscoped
    obtain ⟨hperm, halike⟩ := hrun.unique hp hend hrun'
      ((hrun'.scoped_right.deadComputes_eq_nil_iff hp).1 hdone)
    refine ⟨hrun'.nodup, hperm.length_eq.symm.trans hlength, halike, fun o => ?_⟩
    rw [← hperm.mem_iff, hrun.mem_iff]
  · have hdefines : p.removeDeadComputes.1.definingOp? v = some z := by
      rw [hq.prunes.definingOp?]
      exact (hp.linked.definingOp?_of_result (hq.prunes.results z ▸ hv)).1
    rw [hq.prunes.isLive_of_inView hp.linked (hq.wellScoped o ho v hused) hdefines] at hz
    cases hz
  · have ht := (hp.nests.built hbuild).1
    obtain ⟨t', c', hbuild', ht'⟩ := hq.prunes.exists_scopeTree hp ht
    exact ⟨t', c', hbuild', fun a i b j ha hb => hrun.reachesNth_iff hp ht ht' ha hb⟩

/-- A value of the first compute is used in the second one, so the first one dies last. -/
def deadDiamond : String := "func @f(%n: index) \x7b
  %a = join
  %t, %k = compute [%a] \x7b
    yield %n
  \x7d
  %u, %l = compute [%t] \x7b
    yield %k
  \x7d
  %x, %y = compute [%t, %u] \x7b
    yield %n
  \x7d
  %z = join [%u, %x]
\x7d
"

theorem removeDeadComputes_exact_deadDiamond : ∃ p t c, readProgram deadDiamond = .ok p ∧
    p.scopeTree = .ok (t, c) ∧ p.deadComputes p.useMap = [⟨4⟩, ⟨6⟩] ∧
    p.removeDeadComputes.2 = 3 ∧ p.removeDeadComputes.1.walk = [⟨0⟩, ⟨7⟩] ∧
    ∃ r, p.OneByOne [⟨6⟩, ⟨4⟩, ⟨2⟩] r ∧ r.deadComputes r.useMap = [] ∧
      p.removeDeadComputes.1.Alike r := by
  obtain ⟨p, t, c, hsource, hbuild, htest⟩ := passes_iff.1
    (show passes deadDiamond (fun p _ _ =>
      let r := ((p.dropCompute ⟨6⟩).dropCompute ⟨4⟩).dropCompute ⟨2⟩
      (p.deadComputes p.useMap = [⟨4⟩, ⟨6⟩] ∧ p.removeDeadComputes.2 = 3 ∧
        p.removeDeadComputes.1.walk = [⟨0⟩, ⟨7⟩]) ∧
      (⟨6⟩ ∈ p.deadComputes p.useMap ∧
        ⟨4⟩ ∈ (p.dropCompute ⟨6⟩).deadComputes (p.dropCompute ⟨6⟩).useMap ∧
        ⟨2⟩ ∈ ((p.dropCompute ⟨6⟩).dropCompute ⟨4⟩).deadComputes
          ((p.dropCompute ⟨6⟩).dropCompute ⟨4⟩).useMap) ∧ r.deadComputes r.useMap = []) = true by
      decide +kernel)
  obtain ⟨⟨hdead, hcount, hwalk⟩, ⟨h₆, h₄, h₂⟩, hdone⟩ := of_decide_eq_true htest
  have hone : p.OneByOne [⟨6⟩, ⟨4⟩, ⟨2⟩] _ := .cons h₆ (.cons h₄ (.cons h₂ (.nil _)))
  obtain ⟨-, -, -, hexact, -⟩ := removeDeadComputes_exact hsource
  obtain ⟨-, -, halike, -⟩ := hexact _ _ hone hdone
  exact ⟨p, t, c, hsource, hbuild, hdead, hcount, hwalk, _, hone, hdone, halike⟩

end Program

end AsyncOrder
