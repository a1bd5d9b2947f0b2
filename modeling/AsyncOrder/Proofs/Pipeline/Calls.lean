import AsyncOrder.Proofs.Pipeline.Passes
import AsyncOrder.Proofs.Pipeline.RoundTrip
import AsyncOrder.Proofs.Rewriting.Limiting
import AsyncOrder.Proofs.Rewriting.Reaching
import AsyncOrder.Proofs.Scope.Enclosing
import Mathlib

/-!
# What calls wait on

Segments and herds come to wait on control tokens only, and a join of one token is no control event:
it gives way to the token.  So a canonical program leads from `a` to `b` just where the refilled
program has a way from `a` to `b` that comes to no call before a control token holds it:

    a leads to b in the end ↔ ∃ isHeld, q.Ways r.isLive q a isHeld b   (canonicalize_keeps_control)

Every step from a join that stays holds, so what the join waits on is not lost behind it.
-/

namespace AsyncOrder

open Program Relation

variable {p q : Program} {t reduced : ScopeTree} {c : Context} {s : Scope} {path : Path}
variable {a b j o z : OpId} {u v : Nat} {last : OpId → Bool} {options : Options}

/-! ## Steps from joins -/

/-- A join produces its own result, and what conditionals yield it for. -/
theorem Program.Prunes.holds_of_madeBy {token : ValueId} (h : p.Prunes q) (hj : p.kind j = .join)
    (hlast : last j = true) (hmade : q.MadeBy token j) : p.Holds last token := by
  obtain ⟨w, hleads, hproducer⟩ := hmade
  rcases ReflTransGen.cases_head hleads with rfl | ⟨x, hx, -⟩
  · rcases producerOp?_cases hproducer with hkind | ⟨hdefines, -⟩ | ⟨y, -, hyield⟩
    · rw [h.kind, hj] at hkind
      cases hkind
    · rw [h.definingOp?] at hdefines
      refine ⟨?_, fun z hz _ => ?_⟩
      · rw [Program.isControlToken, hdefines, Option.map_some, hj, Bool.or_true]
      · obtain rfl := Option.some.inj (hdefines.symm.trans hz)
        exact hlast
    · obtain ⟨body, -, hterm⟩ := Option.bind_eq_some_iff.1 hyield
      have hend := (WellFormed.mem_ops_of_terminator? hterm).2
      rw [h.kind, hj] at hend
      cases hend
  · exact holds_of_yieldedBy h hx

theorem Program.Prunes.holds_of_steps (h : p.Prunes q) (hj : p.kind j = .join)
    (hlast : last j = true) (hstep : q.Steps (fun _ => True) j b) :
    q.Steps (p.Holds last) j b := by
  obtain ⟨hlive, token, htoken, -, hmade⟩ := hstep
  exact ⟨hlive, token, htoken, h.holds_of_madeBy hj hlast hmade, hmade⟩

/-! ## Paths of the refilled program -/

/-- The operations wait on one another only. -/
def Program.waitsAmong (p : Program) (ops : List OpId) : Bool :=
  ops.all fun x => (p.kind x).isAsync &&
    (p.deps x).all fun v => ops.any fun y => v ∈ (p.op y).results

section

variable (hp : p.WellFormed) (ht : Laid p c [] none (p.funcs.map (·.body)) t)
include hp ht

/-- An operation has its vertex in one scope of the tree. -/
theorem Laid.op?_inj {path' : Path} {s' : Scope} (hs : t.get? path = some s)
    (hs' : t.get? path' = some s') (hu : s.op? u = some o) (hv : s'.op? v = some o) :
    path = path' ∧ s = s' ∧ u = v := by
  obtain ⟨call, blocks, -, h⟩ := ht.drawn hp hs
  obtain ⟨call', blocks', -, h'⟩ := ht.drawn hp hs'
  obtain ⟨rfl, rfl⟩ := h.op?_inj h' hu hv
  exact ⟨rfl, Option.some.inj (hs.symm.trans hs'), rfl⟩

/-- What leads to an operation does so in the scope that has it. -/
theorem Laid.reaches_iff (hs : t.get? path = some s) (hv : s.op? v = some o) :
    (p.resolve c t).tree.Reaches z o ↔
      ∃ u, s.op? u = some z ∧ (p.resolveScope c path s).graph.Path u v := by
  constructor
  · rintro ⟨path', r, u, v', hr, hu, hv', hpath⟩
    rw [resolve, Tree.get?_mapWithPath] at hr
    obtain ⟨s', hs', rfl⟩ := Option.map_eq_some_iff.1 hr
    obtain ⟨rfl, rfl, rfl⟩ := ht.op?_inj hp hs' hs hv' hv
    exact ⟨u, hu, hpath⟩
  · rintro ⟨u, hu, hpath⟩
    refine ⟨path, p.resolveScope c path s, u, v, ?_, hu, hv, hpath⟩
    rw [resolve, Tree.get?_mapWithPath, hs]
    rfl

omit hp ht in
theorem exists_vertices (h : (p.resolve c t).tree.Reaches z o) :
    ∃ path s u v, t.get? path = some s ∧ s.op? u = some z ∧ s.op? v = some o := by
  obtain ⟨path, r, u, v, hr, hu, hv, -⟩ := h
  rw [resolve, Tree.get?_mapWithPath] at hr
  obtain ⟨s, hs, rfl⟩ := Option.map_eq_some_iff.1 hr
  exact ⟨path, s, u, v, hs, hu, hv⟩

theorem Laid.reaches_trans (haz : (p.resolve c t).tree.Reaches a z)
    (hzo : (p.resolve c t).tree.Reaches z o) : (p.resolve c t).tree.Reaches a o := by
  obtain ⟨path, s, u, v, hs, hu, hv⟩ := exists_vertices hzo
  obtain ⟨w, hw, hwu⟩ := (ht.reaches_iff hp hs hu).1 haz
  obtain ⟨u', hu', huv⟩ := (ht.reaches_iff hp hs hv).1 hzo
  obtain ⟨-, -, rfl⟩ := ht.op?_inj hp hs hs hu hu'
  exact (ht.reaches_iff hp hs hv).2 ⟨w, hw, hwu.trans huv⟩

theorem Laid.not_reaches_self : ¬ (p.resolve c t).tree.Reaches o o := by
  intro h
  obtain ⟨path, s, u, -, hs, hu, -⟩ := exists_vertices h
  obtain ⟨v, hv, hvu⟩ := (ht.reaches_iff hp hs hu).1 h
  obtain ⟨-, -, rfl⟩ := ht.op?_inj hp hs hs hu hv
  obtain ⟨call, blocks, hscope, hd⟩ := ht.drawn hp hs
  exact Nat.lt_irrefl _ (hvu.lt (hd.ordered_resolveScope hp hscope).forward)

/-- An operation comes before what lists its result. -/
theorem Laid.reaches_of_mem_deps {w : ValueId} (ha : (p.kind a).isAsync = true)
    (hw : w ∈ (p.op a).results) (hb : w ∈ p.deps b) : (p.resolve c t).tree.Reaches a b := by
  have hasync := (hp.of_mem_deps hb).1
  have hlive := hp.linked.isLive (lt_of_mem_deps hb)
  have hproducer := (hp.linked.prunes.producerOp?_result hp.linked hw ha).1
  refine (hp.scoped.reaches_iff hp ht hlive hasync).2 (.single ⟨hlive, w, ?_, trivial, w, .refl,
    hproducer⟩)
  rwa [tokenList_of_isAsync hasync]

omit ht in
/-- What leads to one of some operations that wait on one another only is one of them. -/
theorem Laid.mem_of_reaches {t' : ScopeTree} {c' : Context} {ops : List OpId} (h : p.Scoped q)
    (ht' : Laid q c' [] none (q.funcs.map (·.body)) t') (hops : q.waitsAmong ops = true)
    (hb : b ∈ ops) (hlive : q.isLive b = true) (hab : (q.resolve c' t').tree.Reaches a b) :
    a ∈ ops := by
  simp only [waitsAmong, List.all_eq_true, List.any_eq_true, Bool.and_eq_true, decide_eq_true_eq,
    h.prunes.kind, h.prunes.results] at hops
  rw [h.reaches_iff hp ht' hlive (hops b hb).1] at hab
  have hstep : ∀ {x y}, y ∈ ops → q.Steps (fun _ => True) x y → x ∈ ops := by
    rintro x y hy ⟨-, w, hw, -, hmade⟩
    rw [h.tokenList_eq (hops y hy).1] at hw
    obtain ⟨z, hz, hwz⟩ := (hops y hy).2 w hw
    obtain ⟨hproducer, hnil⟩ := h.prunes.producerOp?_result hp.linked hwz (hops z hz).1
    rwa [(madeBy_iff_eq hproducer hnil).1 hmade]
  induction hab using TransGen.head_induction_on with
  | single hxb => exact hstep hb hxb
  | head hxy _ ih => exact hstep ih hxy

variable (hbuild : p.scopeTree = .ok (t, c))
variable (hget : ∀ path, reduced.get? path = (t.get? path).map (p.reducedAt c t path))
include hbuild hget

/-- Where the tokens filled in restore a scope, the refilled program leads to its operations as the
program does. -/
theorem Laid.reaches_rewriteTokens (hs : t.get? path = some s) (hv : s.op? v = some o)
    (hasync : (p.kind o).isAsync = true) (hrestores : p.Restores c path (p.reducedAt c t path s)) :
    ((p.rewriteTokens reduced).1.resolve c t).tree.Reaches z o ↔
      (p.resolve c t).tree.Reaches z o := by
  have hq := ht.wellFormed_rewriteTokens hp hget
  have htq := (ht.laid_rewriteTokens hp hget hbuild).2
  obtain ⟨call, blocks, hscope, h⟩ := ht.drawn hp hs
  obtain ⟨call', blocks', hscope', h'⟩ := htq.drawn hq hs
  have hg := h.ordered_resolveScope hp hscope
  have hg' := h'.ordered_resolveScope hq hscope'
  rw [htq.reaches_iff hq hs hv, ht.reaches_iff hp hs hv]
  refine exists_congr fun u => and_congr_right fun hu => ?_
  have hstart : u ≠ Scope.start := h.ne_start hu
  have hend : s.terminator ≠ some v := h.ne_terminator hv hasync
  rw [← hg'.closes_close.path u v hstart hend, ← hg.closes_close.path u v hstart hend]
  exact path_close_of_restores strip_rewriteTokens
    (fun _ _ ho hasync _ => ht.mem_deps_rewriteTokens hp hget hs ho hasync) hg hg'
    (fun _ _ ho hasync => ht.waiter hp hs ho hasync) hrestores

theorem Laid.steps_rewriteTokens (hs : t.get? path = some s) (hv : s.op? v = some o)
    (hasync : (p.kind o).isAsync = true) (hrestores : p.Restores c path (p.reducedAt c t path s)) :
    TransGen ((p.rewriteTokens reduced).1.Steps fun _ => True) z o ↔
      (p.resolve c t).tree.Reaches z o := by
  have hq := ht.wellFormed_rewriteTokens hp hget
  have htq := (ht.laid_rewriteTokens hp hget hbuild).2
  have hstrip : (p.rewriteTokens reduced).1.strip false = p.strip false := strip_rewriteTokens
  have hlive := (mem_waiters.1 (ht.waiter hp hs hv hasync)).2.1
  rw [← (rewires_of_strip hstrip).isLive] at hlive
  rw [← ht.reaches_rewriteTokens hp hbuild hget hs hv hasync hrestores]
  rw [← kind_eq_of_strip hstrip] at hasync
  exact (hq.scoped.reaches_iff hq htq hlive hasync).symm

/-- What a join waits on comes to the calls behind the join, if the join stays and no call comes
before it. -/
theorem Laid.way_of_join (hj : p.kind j = .join) (hlast : last j = true)
    (hasync : (p.kind b).isAsync = true) (haj : (p.resolve c t).tree.Reaches a j)
    (hjb : (p.resolve c t).tree.Reaches j b)
    (hgate : ∀ g, waitsOnControl (p.kind g) = true → (p.resolve c t).tree.Reaches a g →
      ¬ (p.resolve c t).tree.Reaches g j)
    (hrestores : ∀ path r, reduced.get? path = some r → (∃ v, r.op? v = some j) →
      p.Restores c path r) :
    (p.rewriteTokens reduced).1.Ways last (p.rewriteTokens reduced).1 a true b := by
  have hstrip : (p.rewriteTokens reduced).1.strip false = p.strip false := strip_rewriteTokens
  have hkind := kind_eq_of_strip hstrip
  obtain ⟨path, s, u, v, hs, hu, hv⟩ := exists_vertices hjb
  have hscope := hrestores path (p.reducedAt c t path s) (by rw [hget, hs]; rfl)
    ⟨u, op?_reducedAt.trans hu⟩
  have hsteps : ∀ {z o v}, s.op? v = some o → (p.kind o).isAsync = true →
      (TransGen ((p.rewriteTokens reduced).1.Steps fun _ => True) z o ↔
        (p.resolve c t).tree.Reaches z o) := fun hv hasync =>
    ht.steps_rewriteTokens hp hbuild hget hs hv hasync hscope
  have hjasync : (p.kind j).isAsync = true := by rw [hj]; rfl
  -- the way to the join meets no gate, and the first step from the join holds it
  have hway : (p.rewriteTokens reduced).1.Ways last (p.rewriteTokens reduced).1 a false j := by
    refine way_of_reaches ((hsteps hu hjasync).2 haj).to_reflTransGen fun g hag hgj hg => ?_
    rw [hkind] at hg
    rcases reflTransGen_iff_eq_or_transGen.1 hgj with rfl | hgj
    · rw [hj] at hg
      cases hg
    · have hgj := (hsteps hu hjasync).1 hgj
      obtain ⟨path', s', w, u', hs', hw, hu'⟩ := exists_vertices hgj
      obtain ⟨rfl, rfl, rfl⟩ := ht.op?_inj hp hs' hs hu' hu
      exact hgate g hg ((hsteps hw (Scoped.isAsync_of_waitsOnControl hg)).1 hag) hgj
  obtain ⟨x, hjx, hxb⟩ := TransGen.head'_iff.1 ((hsteps hv hasync).2 hjb)
  have hq := ht.wellFormed_rewriteTokens hp hget
  have hheld := hq.linked.prunes.holds_of_steps ((hkind j).trans hj) hlast hjx
  exact (Way.hold hway hheld).trans_reaches hxb

end

/-! ## Cleaning up -/

/-- The scopes of a program that has been cleaned up build, and lead from one operation to another
just where the program has a way. -/
theorem Laid.reaches_cleanup (hp : p.WellFormed)
    (ht : Laid p c [] none (p.funcs.map (·.body)) t) :
    ∃ t' c', p.cleanup.1.scopeTree = .ok (t', c') ∧ ∀ a b, a ≠ b →
      p.cleanup.1.isLive a = true → p.cleanup.1.isLive b = true → (p.kind b).isAsync = true →
      ((p.cleanup.1.resolve c' t').tree.Reaches a b ↔
        ∃ isHeld, p.Ways p.cleanup.1.isLive p a isHeld b) := by
  have hcleanup : p.Scoped p.cleanup.1 :=
    hp.scoped.cleanupStages hp _ (List.mem_of_getLast? getLast?_cleanupStages)
  obtain ⟨t', c', hbuild, ht'⟩ := hcleanup.prunes.exists_scopeTree hp ht
  refine ⟨t', c', hbuild, fun a b hne ha hb hasync => ?_⟩
  rw [hcleanup.reaches_iff hp ht' hb hasync, ← hp.staged.path_cleanup hp ht ha hb,
    reflTransGen_iff_eq_or_transGen, or_iff_right (Ne.symm hne)]

/-! ## Programs that are read -/

/-- The scopes of a canonical program build, and lead from one operation to another just where the
refilled program has a way.  So they lead from what a join waits on to what waits on the join, if
the join stays, no segment or herd comes before it, and its scope comes back when it is refilled. -/
theorem canonicalize_keeps_control {source : String} (hsource : readProgram source = .ok p)
    (hbuild : p.scopeTree = .ok (t, c)) (htrace : options.traceMemory = false) :
    ∃ reduced, (p.resolve c t).tree.stitch.scopes.reduce = .ok reduced ∧
      ∃ filled r t' c', filled = (p.rewriteTokens reduced).1 ∧
      (p.canonicalize options).failure = none ∧ r = (p.canonicalize options).session.program ∧
      r.scopeTree = .ok (t', c') ∧
      (∀ a b, a ≠ b → r.isLive a = true → r.isLive b = true → (p.kind b).isAsync = true →
        ((r.resolve c' t').tree.Reaches a b ↔ ∃ isHeld, filled.Ways r.isLive filled a isHeld b)) ∧
      ∀ a j b v, r.isLive a = true → r.isLive j = true → r.isLive b = true →
        p.kind j = .join → v ∈ (p.op j).results → v ∈ p.deps b →
        (p.resolve c t).tree.Reaches a j →
        (∀ g, waitsOnControl (p.kind g) = true → (p.resolve c t).tree.Reaches a g →
          ¬ (p.resolve c t).tree.Reaches g j) →
        (∀ path s, reduced.get? path = some s → (∃ u, s.op? u = some j) → p.Restores c path s) →
        (r.resolve c' t').tree.Reaches a b := by
  have hp := wellFormed_of_readProgram hsource
  have ht := laid_of_scopeTree hp hbuild
  obtain ⟨hstitch, reduced, hreduce, hget⟩ := ht.reduced_tree hp
  obtain ⟨hok, hprogram⟩ := canonicalize_of_reduce hp htrace hbuild hstitch hreduce
  have hq := ht.wellFormed_rewriteTokens hp hget
  have htq := (ht.laid_rewriteTokens hp hget hbuild).2
  have hkind := kind_eq_of_strip (q := (p.rewriteTokens reduced).1) strip_rewriteTokens
  obtain ⟨t', c', hbuild', hreaches⟩ := htq.reaches_cleanup hq
  refine ⟨reduced, hreduce, _, _, t', c', rfl, hok, hprogram.symm, hbuild', ?_, ?_⟩
  · intro a b hne ha hb hasync
    exact hreaches a b hne ha hb ((hkind b).symm ▸ hasync)
  · intro a j b v ha hj hb hjoin hv hlists haj hgate hrestores
    have hjb := ht.reaches_of_mem_deps hp (by rw [hjoin]; rfl) hv hlists
    have hasync := (hp.of_mem_deps hlists).1
    have hne : a ≠ b := by
      rintro rfl
      exact ht.not_reaches_self hp (ht.reaches_trans hp haj hjb)
    have hway := ht.way_of_join hp hbuild hget hjoin hj hasync haj hjb hgate hrestores
    exact (hreaches a b hne ha hb ((hkind b).symm ▸ hasync)).2 ⟨true, hway⟩

/-- The join waits on two calls, and so does the last call behind it. -/
def twoCalls : String := "func @f() \x7b
  %t = segment \x7b
    end
  \x7d
  %s = segment \x7b
    end
  \x7d
  %j = join [%t, %s]
  %h = segment [%j] \x7b
    end
  \x7d
\x7d
"

set_option maxRecDepth 2000 in
/-- The last call comes to wait for what the join waits on. -/
theorem canonicalize_keeps_control_twoCalls : ∃ p t c r t' c', readProgram twoCalls = .ok p ∧
    p.scopeTree = .ok (t, c) ∧ (p.resolve c t).tree.Reaches ⟨1⟩ ⟨4⟩ ∧
    r = (p.canonicalize .default).session.program ∧ r.scopeTree = .ok (t', c') ∧
    (r.resolve c' t').tree.Reaches ⟨1⟩ ⟨6⟩ := by
  obtain ⟨p, t, c, hsource, hbuild, htest⟩ := passes_iff.1
    (show passes twoCalls (fun p t c =>
      let r := (p.canonicalize .default).session.program
      (r.isLive ⟨1⟩ && r.isLive ⟨4⟩ && r.isLive ⟨6⟩) &&
        (p.kind ⟨4⟩ = .join && (p.op ⟨4⟩).results = [⟨2⟩] && p.deps ⟨6⟩ = [⟨2⟩]) &&
        ((p.op ⟨1⟩).results = [⟨0⟩] && p.deps ⟨4⟩ = [⟨0⟩, ⟨1⟩] && (p.kind ⟨1⟩).isAsync) &&
        (p.waitsAmong [⟨4⟩, ⟨1⟩, ⟨3⟩] && p.isLive ⟨4⟩ && p.waitsAmong [⟨3⟩] && p.isLive ⟨3⟩) &&
        t.root.op? 3 = some ⟨4⟩ &&
        (p.resolve c t).tree.stitch.scopes.reduce.toOption.any fun reduced =>
          ((p.rewriteTokens reduced).1.reducedAt c t [] t.root).edgeKeys =
            (p.reducedAt c t [] t.root).edgeKeys) = true by decide_cbv)
  obtain ⟨reduced, hreduce, -, r, t', c', -, -, rfl, hbuild', -, hjoins⟩ :=
    canonicalize_keeps_control hsource hbuild (show Options.default.traceMemory = false from rfl)
  have hp := wellFormed_of_readProgram hsource
  have ht := laid_of_scopeTree hp hbuild
  obtain ⟨-, reduced', hreduce', hget⟩ := ht.reduced_tree hp
  obtain rfl := Except.ok.inj (hreduce.symm.trans hreduce')
  simp only [hreduce, Except.toOption, Option.any_some, Bool.and_eq_true,
    decide_eq_true_eq] at htest
  obtain ⟨⟨⟨⟨⟨⟨⟨ha, hj⟩, hb⟩, ⟨hjoin, hresults⟩, hlists⟩, ⟨hmade, hwaits⟩, hasync⟩,
    ⟨⟨hbefore, hjlive⟩, hthird⟩, hlive⟩, hvertex⟩, hkeys⟩ := htest
  have hroot : t.get? [] = some t.root := rfl
  have haj : (p.resolve c t).tree.Reaches ⟨1⟩ ⟨4⟩ :=
    ht.reaches_of_mem_deps hp hasync (hmade ▸ List.mem_singleton_self _)
      (hwaits ▸ List.mem_cons_self)
  refine ⟨p, t, c, _, t', c', hsource, hbuild, haj, rfl, hbuild', hjoins ⟨1⟩ ⟨4⟩ ⟨6⟩ ⟨2⟩ ha hj hb
    hjoin (hresults ▸ List.mem_singleton_self _) (hlists ▸ List.mem_singleton_self _) haj ?_ ?_⟩
  · intro g _ hag hgj
    -- the calls before the join do not wait on each other
    have hg := ht.mem_of_reaches hp hp.scoped hbefore List.mem_cons_self hjlive hgj
    simp only [List.mem_cons, List.not_mem_nil, or_false] at hg
    rcases hg with rfl | rfl | rfl
    · exact ht.not_reaches_self hp hgj
    · exact ht.not_reaches_self hp hag
    · have hmem := ht.mem_of_reaches hp hp.scoped hthird List.mem_cons_self hlive hag
      exact absurd hmem (by decide)
  · rintro path r hr ⟨u, hu⟩
    rw [hget] at hr
    obtain ⟨s, hs, rfl⟩ := Option.map_eq_some_iff.1 hr
    obtain ⟨rfl, rfl, -⟩ := ht.op?_inj hp hroot hs hvertex (op?_reducedAt.symm.trans hu)
    exact ((Laid.tfae_restores hp hbuild hget hroot).out 1 2).1 fun e => by rw [hkeys]

/-- The join waits on one token, so it gives way to the token, which is no control token. -/
def loneToken : String := "func @f() \x7b
  %t = segment \x7b
    end
  \x7d
  %j = join [%t]
  %h = segment [%j] \x7b
    end
  \x7d
\x7d
"

/-- The join stays, but the call before it does not come to wait on the first one. -/
def callBetween : String := "func @f() \x7b
  %t = segment \x7b
    end
  \x7d
  %s = join
  %g = segment [%t] \x7b
    end
  \x7d
  %j = join [%g, %s]
  %h = segment [%j] \x7b
    end
  \x7d
\x7d
"

/-- Calls that list the result of `j` still wait for what `j` waits on when the run has ended. -/
def Program.KeepsWaits (p : Program) (options : Options) (j : OpId) : Prop :=
  ∀ t c t' c', p.scopeTree = .ok (t, c) →
    (p.canonicalize options).session.program.scopeTree = .ok (t', c') →
    ∀ a b v, v ∈ (p.op j).results → v ∈ p.deps b → waitsOnControl (p.kind b) = true →
      (p.kind a).isAsync = true → (p.resolve c t).tree.Reaches a j →
      (p.canonicalize options).session.program.isLive a = true →
      (p.canonicalize options).session.program.isLive b = true →
      ((p.canonicalize options).session.program.resolve c' t').tree.Reaches a b

/-- It does not if the call ends up with operations that wait on one another only. -/
theorem not_keepsWaits {w : ValueId} {ops : List OpId} (hp : p.WellFormed)
    (hbuild : p.scopeTree = .ok (t, c)) (htrace : options.traceMemory = false)
    (haj : (p.resolve c t).tree.Reaches a j) (hresult : w ∈ (p.op j).results)
    (hlists : w ∈ p.deps b)
    (hkind : waitsOnControl (p.kind b) = true) (hasync : (p.kind a).isAsync = true)
    (ha : (p.canonicalize options).session.program.isLive a = true)
    (hb : (p.canonicalize options).session.program.isLive b = true)
    (hops : (p.canonicalize options).session.program.waitsAmong ops = true) (hbops : b ∈ ops)
    (haops : a ∉ ops) : ¬ p.KeepsWaits options j := by
  intro h
  have ht := laid_of_scopeTree hp hbuild
  have hscoped := (scoped_canonicalize hp hbuild htrace).2
  obtain ⟨t', c', hbuild', ht'⟩ := hscoped.prunes.exists_scopeTree hp ht
  exact haops (ht'.mem_of_reaches hp hscoped hops hbops hb
    (h t c t' c' hbuild hbuild' a b w hresult hlists hkind hasync haj ha hb))

set_option maxRecDepth 2000 in
/-- What a call waits on through a join is lost when the join collapses, and, where the join stays,
when a call comes before it. -/
theorem not_canonicalize_keeps_waits :
    (¬ ∀ (source : String) (p : Program) (options : Options), readProgram source = .ok p →
      options.traceMemory = false → ∀ j, p.kind j = .join → p.KeepsWaits options j) ∧
    ¬ ∀ (source : String) (p : Program) (options : Options), readProgram source = .ok p →
      options.traceMemory = false → ∀ j, p.kind j = .join →
        (p.canonicalize options).session.program.isLive j = true → p.KeepsWaits options j := by
  constructor
  · intro h
    obtain ⟨p, t, c, hsource, hbuild, htest⟩ := passes_iff.1
      (show passes loneToken (fun p _ _ =>
        let r := (p.canonicalize .default).session.program
        (p.kind ⟨2⟩ = .join && (p.op ⟨2⟩).results = [⟨1⟩] && p.deps ⟨4⟩ = [⟨1⟩] &&
            waitsOnControl (p.kind ⟨4⟩)) &&
          ((p.op ⟨1⟩).results = [⟨0⟩] && p.deps ⟨2⟩ = [⟨0⟩] && (p.kind ⟨1⟩).isAsync) &&
          (r.isLive ⟨1⟩ && r.isLive ⟨4⟩ && r.waitsAmong [⟨4⟩])) = true by decide_cbv)
    simp only [Bool.and_eq_true, decide_eq_true_eq] at htest
    obtain ⟨⟨⟨⟨⟨hjoin, hresults⟩, hlists⟩, hkind⟩, ⟨hmade, hwaits⟩, hasync⟩, ⟨ha, hb⟩, hops⟩ :=
      htest
    have hp := wellFormed_of_readProgram hsource
    have haj := (laid_of_scopeTree hp hbuild).reaches_of_mem_deps hp hasync
      (hmade ▸ List.mem_singleton_self _) (hwaits ▸ List.mem_singleton_self _)
    exact not_keepsWaits hp hbuild rfl haj (hresults ▸ List.mem_singleton_self _)
      (hlists ▸ List.mem_singleton_self _) hkind hasync ha hb hops List.mem_cons_self (by decide)
      (h loneToken p .default hsource rfl ⟨2⟩ hjoin)
  · intro h
    obtain ⟨p, t, c, hsource, hbuild, htest⟩ := passes_iff.1
      (show passes callBetween (fun p _ _ =>
        let r := (p.canonicalize .default).session.program
        (p.kind ⟨5⟩ = .join && (p.op ⟨5⟩).results = [⟨3⟩] && p.deps ⟨7⟩ = [⟨3⟩] &&
            waitsOnControl (p.kind ⟨7⟩)) &&
          ((p.op ⟨1⟩).results = [⟨0⟩] && p.deps ⟨4⟩ = [⟨0⟩] && (p.kind ⟨1⟩).isAsync) &&
          ((p.op ⟨4⟩).results = [⟨2⟩] && p.deps ⟨5⟩ = [⟨2⟩, ⟨1⟩] && (p.kind ⟨4⟩).isAsync) &&
          (r.isLive ⟨1⟩ && r.isLive ⟨5⟩ && r.isLive ⟨7⟩ &&
            r.waitsAmong [⟨7⟩, ⟨5⟩, ⟨4⟩, ⟨2⟩])) = true by decide_cbv)
    simp only [Bool.and_eq_true, decide_eq_true_eq] at htest
    obtain ⟨⟨⟨⟨⟨⟨hjoin, hresults⟩, hlists⟩, hkind⟩, ⟨hmade, hwaits⟩, hasync⟩,
      ⟨hmade', hwaits'⟩, hasync'⟩, ⟨⟨ha, hj⟩, hb⟩, hops⟩ := htest
    have hp := wellFormed_of_readProgram hsource
    have ht := laid_of_scopeTree hp hbuild
    have hag := ht.reaches_of_mem_deps hp hasync
      (hmade ▸ List.mem_singleton_self _) (hwaits ▸ List.mem_singleton_self _)
    have hgj := ht.reaches_of_mem_deps hp hasync'
      (hmade' ▸ List.mem_singleton_self _) (hwaits' ▸ List.mem_cons_self)
    exact not_keepsWaits hp hbuild rfl (ht.reaches_trans hp hag hgj)
      (hresults ▸ List.mem_singleton_self _) (hlists ▸ List.mem_singleton_self _) hkind hasync ha hb
      hops List.mem_cons_self (by decide) (h callBetween p .default hsource rfl ⟨5⟩ hjoin hj)

end AsyncOrder
