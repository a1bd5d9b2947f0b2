import AsyncOrder.Proofs.Pipeline.Traced
import AsyncOrder.Proofs.Scope.Coverage

/-!
# How a run ends

The scopes of a program that is read are built in topological order: edges lead from smaller to
larger vertices, as they are built, resolved and stitched (`scopes_forward`).  So without memory
tracing a run fails in one way only, when a compute holds what is no primitive, and it names the
first such operation in document order:

    failure of a run = p.walk.find? p.isForeign, as a failure to build        (canonicalize_fails_iff)

Building meets computes scope by scope and looks into their bodies only.  A foreign operation that
lies deeper in a compute is behind one that stands directly in it, so the orders agree.
-/

namespace AsyncOrder

open Program

variable {p : Program} {t : ScopeTree} {c : Context} {path : Path} {call : Option OpId}
variable {blocks : List BlockId} {ops : List OpId} {o z : OpId}

/-! ## Topological order -/

/-- Edges lead from smaller to larger vertices in every scope, at every stage. -/
theorem scopes_forward {source : String} (hsource : readProgram source = .ok p)
    (hbuild : p.scopeTree = .ok (t, c)) :
    let resolved := (p.resolve c t).tree
    resolved.stitch.failure = none ∧
      ∀ u ∈ [t, resolved, resolved.stitch.scopes], ∀ s ∈ u.toList,
        s.graph.Bounded ∧ s.graph.Forward ∧ s.graph.Acyclic ∧ ∀ v, ¬ s.graph.Edge v v := by
  have hp := wellFormed_of_readProgram hsource
  have ht := laid_of_scopeTree hp hbuild
  have hregular := ht.regular_resolve hp
  obtain ⟨hstitch, _, _, _, hstitched⟩ := hregular.reduce_stitch
  have key : ∀ g : Digraph, g.Bounded → g.Forward →
      g.Bounded ∧ g.Forward ∧ g.Acyclic ∧ ∀ v, ¬ g.Edge v v := fun g hb hf =>
    ⟨hb, hf, hf.acyclic, fun v hv => Nat.lt_irrefl v (hf v v hv)⟩
  refine ⟨hstitch, fun u hu s hs => ?_⟩
  obtain ⟨path, hs⟩ := Tree.mem_toList_iff.1 hs
  simp only [List.mem_cons, List.not_mem_nil, or_false] at hu
  rcases hu with rfl | rfl | rfl
  · obtain ⟨call, blocks, -, hdrawn⟩ := ht.drawn hp hs
    refine key _ (fun u v huv => ?_) fun u v huv => ?_
    · obtain ⟨rfl, hv⟩ := hdrawn.lt_of_edge huv
      exact ⟨Nat.lt_of_succ_lt hv, hv⟩
    · obtain ⟨rfl, -⟩ := hdrawn.lt_of_edge huv
      exact Nat.lt_succ_self u
  · have hordered := hregular.ordered path s hs
    exact key _ hordered.bounded hordered.forward
  · have hordered := (hstitched path s hs).1
    exact key _ hordered.bounded hordered.forward

/-- A loop in a hierarchy call, behind a compute of two steps. -/
def nestedScopes : String := "func @f(%n: index) \x7b
  %t, %v = compute \x7b
    %c = const 1
    yield %c
  \x7d
  %h = herd [%t] args(%k = %n) \x7b
    %j = join
    %l = for %i = %k to %k step %k iter(%q = %j) \x7b
      %d = join [%q]
      yield %d
    \x7d
  \x7d
\x7d
"

theorem scopes_forward_nestedScopes : ∃ p t c, readProgram nestedScopes = .ok p ∧
    p.scopeTree = .ok (t, c) ∧
    (p.resolve c t).tree.stitch.scopes.toList.map (·.edges.length) = [3, 5] ∧
    ∀ s ∈ (p.resolve c t).tree.stitch.scopes.toList, s.graph.Forward := by
  obtain ⟨p, t, c, hsource, hbuild, htest⟩ := passes_iff.1
    (show passes nestedScopes (fun p t c =>
      (p.resolve c t).tree.stitch.scopes.toList.map (·.edges.length) = [3, 5]) = true by
        decide +kernel)
  obtain ⟨-, hall⟩ := scopes_forward hsource hbuild
  exact ⟨p, t, c, hsource, hbuild, of_decide_eq_true htest, fun s hs =>
    (hall _ (by simp) s hs).2.1⟩

/-! ## Foreign operations -/

/-- Does `o` stand directly in a compute without being a primitive? -/
def Program.isForeign (p : Program) (o : OpId) : Bool :=
  (p.parentOp? o).any (fun z => p.kind z = .compute) && !(p.kind o).isComputePrimitive

/-- What building says of a foreign operation. -/
def Program.foreignFailure (p : Program) (bad : OpId) : Failure :=
  .unknownOpInCompute bad (p.kind bad).label (p.op bad).span

namespace Program.WellFormed

variable (hp : p.WellFormed)
include hp

theorem isForeign_iff (ho : o.index < p.ops.size) : p.isForeign o = true ↔
    ∃ z ∈ p.walk, p.kind z = .compute ∧ o ∈ p.computeBody z ∧
      (p.kind o).isComputePrimitive = false := by
  simp only [isForeign, Bool.and_eq_true, Option.any_eq_true, decide_eq_true_eq,
    Bool.not_eq_true']
  constructor
  · rintro ⟨⟨z, hz, hkind⟩, hprim⟩
    have hlt := hp.linked.owner_lt hz
    have hnested := hp.linked.mem_nested_iff.2 ⟨ho, hz⟩
    exact ⟨z, hp.mem_walk.2 hlt, hkind, hp.computeBody_eq hlt hkind ▸ hnested, hprim⟩
  · rintro ⟨z, hz, hkind, hbody, hprim⟩
    rw [hp.computeBody_eq (hp.mem_walk.1 hz) hkind] at hbody
    exact ⟨⟨z, (hp.linked.mem_nested_iff.1 hbody).2, hkind⟩, hprim⟩

/-- The walk of a body is the body up to the first operation that is no primitive. -/
theorem find?_tour_body (hops : ∀ o ∈ ops, o.index < p.ops.size)
    (hbody : ∀ o ∈ ops, ∃ z, p.parentOp? o = some z ∧ p.kind z = .compute) :
    (p.tour (fun _ => true) ops).find? p.isForeign =
      ops.find? fun o => !(p.kind o).isComputePrimitive := by
  induction ops with
  | nil => rfl
  | cons o ops ih =>
    have ho := hops o List.mem_cons_self
    obtain ⟨z, hz, hkind⟩ := hbody o List.mem_cons_self
    have hforeign : p.isForeign o = !(p.kind o).isComputePrimitive := by
      simp [isForeign, hz, hkind]
    rw [← List.singleton_append, tour_append, tour_singleton hp.linked ho, if_pos rfl,
      List.cons_append, List.find?_cons, List.singleton_append, List.find?_cons, hforeign]
    cases hprim : (p.kind o).isComputePrimitive with
    | false => rfl
    | true =>
      have hnested : p.nested o = [] := by
        rw [nested, regions_eq_nil_of_primitive hp ho hprim, List.flatMap_nil]
      have hnil : p.tour (fun _ => true) [] = [] := rfl
      rw [hnested, hnil, List.nil_append]
      exact ih (fun x hx => hops x (List.mem_cons_of_mem _ hx))
        fun x hx => hbody x (List.mem_cons_of_mem _ hx)

/-- Outside computes a walk comes first to the foreign operation that building comes to. -/
theorem find?_tour (n : Nat) (hn : ∀ o ∈ ops, o.index < n)
    (hops : ∀ o ∈ ops, o.index < p.ops.size)
    (houtside : ∀ o ∈ ops, ∀ z, p.parentOp? o = some z → p.kind z ≠ .compute) :
    (p.tour (fun _ => true) ops).find? p.isForeign =
      (p.everything ops).findSome? p.foreign? := by
  induction n generalizing ops with
  | zero =>
    have hnil : ops = [] := List.eq_nil_iff_forall_not_mem.2 fun o ho =>
      Nat.not_lt_zero _ (hn o ho)
    subst hnil
    rfl
  | succ n ih =>
    induction ops with
    | nil => rfl
    | cons o ops ihops =>
      have ho := hops o List.mem_cons_self
      have hforeign : p.isForeign o = false := by
        rw [isForeign, Bool.and_eq_false_iff]
        refine Or.inl (Bool.eq_false_iff.2 fun h => ?_)
        obtain ⟨z, hz, hkind⟩ := Option.any_eq_true _ _ |>.1 h
        exact houtside o List.mem_cons_self z hz (of_decide_eq_true hkind)
      have hrest := ihops (fun x hx => hn x (List.mem_cons_of_mem _ hx))
        (fun x hx => hops x (List.mem_cons_of_mem _ hx))
        fun x hx => houtside x (List.mem_cons_of_mem _ hx)
      have hsplit : ∀ enters, p.tour enters (o :: ops) =
          o :: ((if enters o then p.tour enters (p.nested o) else []) ++ p.tour enters ops) := by
        intro enters
        rw [← List.singleton_append, tour_append, tour_singleton hp.linked ho, List.cons_append]
      rw [everything] at hrest ⊢
      rw [hsplit, hsplit, if_pos rfl, List.find?_cons, hforeign, List.findSome?_cons,
        List.find?_append, List.findSome?_append, ← hrest]
      have hlt : ∀ y ∈ p.nested o, y.index < n := fun y hy => by
        have := hp.linked.nested_lt hy
        have := hn o List.mem_cons_self
        omega
      have hin : ∀ y ∈ p.nested o, y.index < p.ops.size ∧ p.parentOp? y = some o := fun y hy =>
        hp.linked.mem_nested_iff.1 hy
      by_cases hkind : p.kind o = .compute
      · have hholds : p.holds o = false := by simp [holds, shares, hkind, OpKind.isLoop,
          OpKind.isHierarchy]
        rw [hp.find?_tour_body (fun y hy => (hin y hy).1) fun y hy => ⟨o, (hin y hy).2, hkind⟩,
          hholds, foreign?, if_pos hkind, hp.computeBody_eq ho hkind]
        cases (p.nested o).find? fun o => !(p.kind o).isComputePrimitive <;> rfl
      · have hnested : (p.tour (fun _ => true) (p.nested o)).find? p.isForeign =
            (if p.holds o then p.tour p.holds (p.nested o) else []).findSome? p.foreign? := by
          split
          · exact ih hlt (fun y hy => (hin y hy).1) fun y hy z hz => by
              rw [(hin y hy).2] at hz
              exact Option.some.inj hz ▸ hkind
          · next hholds =>
            have hnil : p.nested o = [] := List.eq_nil_iff_forall_not_mem.2 fun y hy => by
              rcases cases_of_mem_nested hp hy with h | h | h
              · exact hholds (by rw [holds, h, Bool.true_or])
              · exact hholds (by rw [holds, h, Bool.or_true])
              · exact hkind h
            rw [hnil]
            rfl
        rw [hnested, foreign?, if_neg hkind]

end Program.WellFormed

/-! ## Building -/

/-- `x` fails just if there is a first foreign operation, and because of it. -/
def Program.Meets (p : Program) {α : Type} (x : Except Failure α) (first? : Option OpId) : Prop :=
  match first? with
  | some bad => x = .error (p.foreignFailure bad)
  | none => ∃ a, x = .ok a

theorem Program.Meets.bind {α β : Type} {x : Except Failure α} {f : α → Except Failure β}
    {first? second? : Option OpId} (hx : p.Meets x first?) (hf : ∀ a, p.Meets (f a) second?) :
    p.Meets (x >>= f) (first?.or second?) := by
  cases first? with
  | some bad =>
    have herror : x = .error (p.foreignFailure bad) := hx
    subst herror
    rfl
  | none =>
    obtain ⟨a, rfl⟩ := hx
    exact hf a

theorem Program.Meets.map {α β : Type} {x : Except Failure α} {g : α → β} {first? : Option OpId}
    (hx : p.Meets x first?) : p.Meets (x >>= fun a => pure (g a)) first? := by
  cases first? with
  | some bad =>
    have herror : x = .error (p.foreignFailure bad) := hx
    subst herror
    rfl
  | none =>
    obtain ⟨a, rfl⟩ := hx
    exact ⟨g a, rfl⟩

theorem Program.Meets.foldlM {α : Type} {step : α → OpId → Except Failure α}
    (hstep : ∀ a, ∀ o ∈ ops, p.Meets (step a o) ((p.covered o).findSome? p.foreign?)) (a : α) :
    p.Meets (ops.foldlM step a) ((ops.flatMap p.covered).findSome? p.foreign?) := by
  induction ops generalizing a with
  | nil => exact ⟨a, rfl⟩
  | cons o ops ih =>
    rw [List.flatMap_cons, List.findSome?_append, List.foldlM_cons]
    exact (hstep a o List.mem_cons_self).bind fun b =>
      ih (fun a x hx => hstep a x (List.mem_cons_of_mem _ hx)) b

theorem Program.meets_addMember
    {inner : Level → OpId → Path → Context → Except Failure (ScopeTree × Context)}
    (hinner : ∀ level ids path c, p.kind o = .hierarchy level ids →
      p.Meets (inner level o path c) ((p.everything (p.nested o)).findSome? p.foreign?))
    (d : Draft) : p.Meets (p.addMember inner path d o) ((p.covered o).findSome? p.foreign?) := by
  rw [addMember, covered, List.findSome?_cons]
  cases hforeign : p.foreign? o with
  | some bad => rfl
  | none =>
    cases hkind : p.kind o with
    | hierarchy level ids =>
      have hcall : (p.kind o).isHierarchy = true := by rw [hkind]; rfl
      rw [if_pos (hkind ▸ hcall)]
      exact (hinner level ids _ _ hkind).map
    | _ => exact ⟨_, rfl⟩

/-- A scope is built just if nothing in it is foreign. -/
theorem Program.Nests.meets_buildScope (hp : p.Nests) (depth : Nat) {kind : ScopeKind}
    (hdepth : ∀ o ∈ p.members blocks, o.index < depth) :
    p.Meets (p.buildScope depth kind call blocks path c)
      ((p.everything (p.blocksOps blocks)).findSome? p.foreign?) := by
  induction depth generalizing kind call blocks path c with
  | zero =>
    have hmembers : p.members blocks = [] := List.eq_nil_iff_forall_not_mem.2 fun o ho =>
      Nat.not_lt_zero _ (hdepth o ho)
    rw [hp.covers, hmembers]
    exact ⟨_, rfl⟩
  | succ depth ih =>
    have hmember : ∀ d, ∀ o ∈ p.members blocks, p.Meets (p.addMember (fun level op path context =>
        p.buildScope depth (.body level) (some op) (p.body? op).toList path context) path d o)
          ((p.covered o).findSome? p.foreign?) := by
      intro d o ho
      refine meets_addMember (fun level ids path c hkind => ?_) d
      have hbody := hp.body o (hp.lt blocks o ho) (by rw [hkind]; rfl)
      rw [hbody]
      refine ih fun y hy => ?_
      have hyo : y.index < o.index := by
        refine hp.inner_lt o y ?_
        rw [hbody, hp.covers]
        exact List.mem_flatMap.2 ⟨y, hy, List.mem_cons_self⟩
      have := hdepth o ho
      omega
    rw [buildScope, hp.covers]
    exact (Meets.foldlM hmember _).map

/-- Building fails at the first foreign operation of a walk. -/
theorem Program.WellFormed.meets_scopeTree (hp : p.WellFormed) :
    p.Meets p.scopeTree (p.walk.find? p.isForeign) := by
  have hroots : ∀ o ∈ p.blocksOps (p.funcs.map (·.body)), p.parentOp? o = none :=
    IsScope.host.parentOp? hp
  have hlt := hp.linked.blocksOps_lt (p.funcs.map (·.body))
  rw [walk_eq_tour, hp.find?_tour _ hlt hlt fun o ho z hz => by rw [hroots o ho] at hz; cases hz]
  refine hp.nests.meets_buildScope _ fun o ho => ?_
  have := hp.nests.lt _ o ho
  omega

/-! ## Runs -/

/-- A run of a program whose scopes do not build. -/
theorem canonicalize_of_error (options : Options) {f : Failure} (hbuild : p.scopeTree = .error f) :
    (p.canonicalize options).failure = some ⟨.build, f⟩ ∧
      (p.canonicalize options).session.program = p := by
  simp [Program.canonicalize, Session.run, required_cleanup, Session.runAll, Session.runPass,
    Session.missing?, Pass.inputs, Session.start, Session.attempt, Session.build, hbuild,
    Session.failed]

/-- Without memory tracing a run fails just if a compute holds what is no primitive, and then
because of the first such operation in document order; the program is left as it was. -/
theorem canonicalize_fails_iff {source : String} (forced : Option ConflictMode)
    (hsource : readProgram source = .ok p) :
    let run := p.canonicalize ⟨false, forced⟩
    (run.failure ≠ none ↔ ∃ z ∈ p.walk, p.kind z = .compute ∧
      ∃ o ∈ p.computeBody z, (p.kind o).isComputePrimitive = false) ∧
    ∀ f, run.failure = some f → run.session.program = p ∧
      ∃ pre bad post, p.walk = pre ++ bad :: post ∧ p.isForeign bad = true ∧
        (∀ o ∈ pre, p.isForeign o = false) ∧
        f = ⟨.build, .unknownOpInCompute bad (p.kind bad).label (p.op bad).span⟩ := by
  have hp := wellFormed_of_readProgram hsource
  have hmeets := hp.meets_scopeTree
  have hexists : (∃ o ∈ p.walk, p.isForeign o = true) ↔ ∃ z ∈ p.walk, p.kind z = .compute ∧
      ∃ o ∈ p.computeBody z, (p.kind o).isComputePrimitive = false := by
    constructor
    · rintro ⟨o, ho, hforeign⟩
      obtain ⟨z, hz, hkind, hbody, hprim⟩ := (hp.isForeign_iff (hp.mem_walk.1 ho)).1 hforeign
      exact ⟨z, hz, hkind, o, hbody, hprim⟩
    · rintro ⟨z, hz, hkind, o, hbody, hprim⟩
      have hlt : o.index < p.ops.size := by
        rw [hp.computeBody_eq (hp.mem_walk.1 hz) hkind] at hbody
        exact (hp.linked.mem_nested_iff.1 hbody).1
      exact ⟨o, hp.mem_walk.2 hlt, (hp.isForeign_iff hlt).2 ⟨z, hz, hkind, hbody, hprim⟩⟩
  rw [← hexists]
  cases hfirst : p.walk.find? p.isForeign with
  | some bad =>
    have hbuild : p.scopeTree = .error (p.foreignFailure bad) := by rwa [hfirst] at hmeets
    obtain ⟨hrun, hprogram⟩ := canonicalize_of_error ⟨false, forced⟩ hbuild
    obtain ⟨hforeign, pre, post, hwalk, hpre⟩ := List.find?_eq_some_iff_append.1 hfirst
    refine ⟨iff_of_true (by rw [hrun]; exact Option.some_ne_none _)
      ⟨bad, List.mem_of_find?_eq_some hfirst, hforeign⟩, fun f hf => ⟨hprogram, ?_⟩⟩
    rw [hrun] at hf
    exact ⟨pre, bad, post, hwalk, hforeign, fun o ho => by simpa using hpre o ho,
      (Option.some.inj hf).symm⟩
  | none =>
    rw [hfirst] at hmeets
    obtain ⟨⟨t, c⟩, hbuild⟩ := hmeets
    obtain ⟨hstitch, reduced, hreduce, -⟩ := (laid_of_scopeTree hp hbuild).reduced_tree hp
    have hrun : (p.canonicalize ⟨false, forced⟩).failure = none :=
      (canonicalize_of_reduce hp rfl hbuild hstitch hreduce).1
    refine ⟨iff_of_false (not_not_intro hrun) fun ⟨o, ho, hforeign⟩ => ?_, fun f hf => ?_⟩
    · exact List.find?_eq_none.1 hfirst o ho hforeign
    · rw [hrun] at hf
      cases hf

/-- The join stands in a loop in a compute. -/
def foreignLoop : String := "func @f(%n: index) \x7b
  %t = compute \x7b
    for %i = %n to %n step %n \x7b
      %s = join
      yield
    \x7d
  \x7d
\x7d
"

theorem canonicalize_fails_iff_foreignLoop : ∃ p, readProgram foreignLoop = .ok p ∧
    (p.canonicalize ⟨false, none⟩).failure =
      some ⟨.build, .unknownOpInCompute ⟨2⟩ "ForOp" (some ⟨42, 103⟩)⟩ ∧
    (p.canonicalize ⟨false, none⟩).session.program = p := by
  obtain ⟨p, hsource, htest⟩ := accepts_iff.1 (show accepts foreignLoop (fun p =>
    ⟨4⟩ ∈ p.walk && p.kind ⟨4⟩ = .compute && ⟨2⟩ ∈ p.computeBody ⟨4⟩ &&
      p.walk.find? p.isForeign = some ⟨2⟩ && p.kind ⟨2⟩ = .loop .sequential &&
      (p.op ⟨2⟩).span = some ⟨42, 103⟩) = true by decide +kernel)
  simp only [Bool.and_eq_true, decide_eq_true_eq] at htest
  obtain ⟨⟨⟨⟨⟨hwalk, hcompute⟩, hbody⟩, hfirst⟩, hkind⟩, hspan⟩ := htest
  obtain ⟨hfails, hreason⟩ := canonicalize_fails_iff none hsource
  have hprim : (p.kind ⟨2⟩).isComputePrimitive = false := by rw [hkind]; rfl
  obtain ⟨f, hf⟩ := Option.ne_none_iff_exists'.1
    (hfails.2 ⟨⟨4⟩, hwalk, hcompute, ⟨2⟩, hbody, hprim⟩)
  obtain ⟨hprogram, pre, bad, post, hsplit, hforeign, hpre, rfl⟩ := hreason f hf
  have hbad : p.walk.find? p.isForeign = some bad := List.find?_eq_some_iff_append.2
    ⟨hforeign, pre, post, hsplit, fun o ho => by rw [hpre o ho]; rfl⟩
  obtain rfl := Option.some.inj (hbad.symm.trans hfirst)
  rw [hkind, hspan] at hf
  exact ⟨p, hsource, hf, hprogram⟩

end AsyncOrder
