import AsyncOrder.Proofs.Pipeline.Passes
import AsyncOrder.Proofs.Rewriting.Cleanup
import AsyncOrder.Proofs.Pipeline.Reduced

/-!
# Canonical programs

Two programs that differ in dependency lists only have the same scopes.  If in every scope the
resolved lists lead to the same paths, the reduced trees are the same, the refilled lists are
the same, and so is the text in the end.
-/

namespace AsyncOrder

open Program AsyncOrder.Digraph

variable {p q : Program} {t reduced : ScopeTree} {c : Context}
variable {call : Option Nat}

/-! ## Two programs -/

theorem reduced_stitched_congr {s s' : Scope} (hs : s.Ordered) (hs' : s'.Ordered)
    (hplain : s.plain = s'.plain) (hpath : ∀ u v, s.graph.Path u v ↔ s'.graph.Path u v) :
    (s.stitched call).reduced = (s'.stitched call).reduced := by
  have hsize : s.plain.size = s'.plain.size := by rw [hplain]
  have hterm : s.plain.terminator = s'.plain.terminator := by rw [hplain]
  exact Scope.reduced_stitched_of_edges hplain (hs.reduction_close_congr hs' hsize hterm hpath)

/-- Reduced trees are the same where all resolved scopes have the same paths. -/
theorem reduced_tree_congr {reduced' : ScopeTree} (hp : p.WellFormed) (hq : q.WellFormed)
    (htp : Laid p c [] none (p.funcs.map (·.body)) t)
    (htq : Laid q c [] none (q.funcs.map (·.body)) t)
    (hpath : ∀ path s s', (p.resolve c t).tree.get? path = some s →
      (q.resolve c t).tree.get? path = some s' → ∀ u v, s.graph.Path u v ↔ s'.graph.Path u v)
    (hget : ∀ path, reduced.get? path = (t.get? path).map (p.reducedAt c t path))
    (hget' : ∀ path, reduced'.get? path = (t.get? path).map (q.reducedAt c t path)) :
    reduced = reduced' := by
  refine Tree.ext fun path => ?_
  rw [hget, hget']
  cases hs : t.get? path with
  | none => rw [Option.map_none, Option.map_none]
  | some s =>
    have hresolved : ∀ p : Program,
        (p.resolve c t).tree.get? path = some (p.resolveScope c path s) := fun p => by
      rw [resolve, Tree.get?_mapWithPath, hs]
      rfl
    rw [Option.map_some, Option.map_some, reducedAt, reducedAt, reduced_stitched_congr
      ((htp.regular_resolve hp).ordered path _ (hresolved p))
      ((htq.regular_resolve hq).ordered path _ (hresolved q)) (by simp)
      (hpath path _ _ (hresolved p) (hresolved q))]

variable {source source' : String} {options : Options}

/-- Programs that differ in dependency lists only, and whose resolved scopes have the same paths,
end as the same text. -/
theorem canonicalize_congr (hsource : readProgram source = .ok p)
    (hsource' : readProgram source' = .ok q) (hstrip : p.strip false = q.strip false)
    (hbuild : p.scopeTree = .ok (t, c)) (htrace : options.traceMemory = false)
    (hpath : ∀ path s s', (p.resolve c t).tree.get? path = some s →
      (q.resolve c t).tree.get? path = some s' → ∀ u v, s.graph.Path u v ↔ s'.graph.Path u v) :
    q.scopeTree = .ok (t, c) ∧ (p.canonicalize options).failure = none ∧
      (q.canonicalize options).failure = none ∧
      (p.canonicalize options).session.program.strip true =
        (q.canonicalize options).session.program.strip true ∧
      (p.canonicalize options).session.program.text =
        (q.canonicalize options).session.program.text := by
  have hp := wellFormed_of_readProgram hsource
  have hq := wellFormed_of_readProgram hsource'
  have hbuild' : q.scopeTree = .ok (t, c) :=
    scopeTree_strip.1 (hstrip ▸ scopeTree_strip.2 hbuild)
  have htp := laid_of_scopeTree hp hbuild
  have htq := laid_of_scopeTree hq hbuild'
  obtain ⟨hstitch, reduced, hreduce, hget⟩ := htp.reduced_tree hp
  obtain ⟨hstitch', reduced', hreduce', hget'⟩ := htq.reduced_tree hq
  obtain rfl := reduced_tree_congr hp hq htp htq hpath hget hget'
  obtain ⟨hok, hprogram⟩ := canonicalize_of_reduce hp htrace hbuild hstitch hreduce
  obtain ⟨hok', hprogram'⟩ := canonicalize_of_reduce hq htrace hbuild' hstitch' hreduce'
  have hsame : (p.canonicalize options).session.program.strip true =
      (q.canonicalize options).session.program.strip true := by
    rw [hprogram, hprogram', ← cleanup_strip, ← cleanup_strip,
      rewriteTokens_congr (htp.waits hp hget) (htq.waits hq hget') hstrip]
  refine ⟨hbuild', hok, hok', hsame, ?_⟩
  rw [← text_strip, hsame, text_strip]

/-- The last join waits on the second one twice, and on the first one as well. -/
def redundant : String := "func @f() \x7b
  %a = join
  %b = join [%a]
  %z = join [%b, %a, %b]
\x7d
"

/-- The last join waits on the second one. -/
def concise : String := "func @f() \x7b
  %a = join
  %b = join [%a]
  %z = join [%b]
\x7d
"

theorem canonicalize_congr_concise : ∃ p q, readProgram redundant = .ok p ∧
    readProgram concise = .ok q ∧ p ≠ q ∧ (p.canonicalize ⟨false, none⟩).session.program.text =
      (q.canonicalize ⟨false, none⟩).session.program.text := by
  obtain ⟨p, t, c, hsource, hbuild, htest⟩ := passes_iff.1
    (show passes redundant (fun p t c => passes concise fun q t' c' =>
      p ≠ q && p.strip false = q.strip false &&
        (p.resolve c t).tree.entries.map (fun e => (e.1, e.2.edges)) =
          [([], [(1, 2), (2, 3), (1, 3)])] &&
        (q.resolve c' t').tree.entries.map (fun e => (e.1, e.2.edges)) =
          [([], [(1, 2), (2, 3)])]) = true by decide +kernel)
  obtain ⟨q, t', c', hsource', hbuild', htest⟩ := passes_iff.1 htest
  simp only [Bool.and_eq_true, decide_eq_true_eq] at htest
  obtain ⟨⟨⟨hne, hstrip⟩, hedges⟩, hedges'⟩ := htest
  obtain ⟨rfl, rfl⟩ : t' = t ∧ c' = c := by
    have hsame := hbuild'.symm.trans (scopeTree_strip.1 (hstrip ▸ scopeTree_strip.2 hbuild))
    exact Prod.mk.inj (Except.ok.inj hsame)
  have hscope : ∀ {t : ScopeTree} {es : List (Nat × Nat)} {path : Path} {s : Scope},
      t.entries.map (fun e => (e.1, e.2.edges)) = [([], es)] → t.get? path = some s →
      s.edges = es := by
    intro t es path s hes hs
    have hmem := List.mem_map_of_mem (f := fun e : Path × Scope => (e.1, e.2.edges))
      (Tree.mem_entries_iff.2 hs)
    rw [hes, List.mem_singleton] at hmem
    exact (Prod.mk.inj hmem).2
  refine ⟨p, q, hsource, hsource', hne, (canonicalize_congr hsource hsource' hstrip hbuild rfl
    fun path s s' hs hs' u v => ?_).2.2.2.2⟩
  have hedge : ∀ u v, s.graph.Edge u v ↔ (u, v) ∈ [(1, 2), (2, 3), (1, 3)] := fun u v => by
    rw [← hscope hedges hs]
    exact Iff.rfl
  have hedge' : ∀ u v, s'.graph.Edge u v ↔ (u, v) ∈ [(1, 2), (2, 3)] := fun u v => by
    rw [← hscope hedges' hs']
    exact Iff.rfl
  have hfirst : s'.graph.Path 1 2 := .single ((hedge' 1 2).2 (by decide))
  have hsecond : s'.graph.Path 2 3 := .single ((hedge' 2 3).2 (by decide))
  constructor
  · refine path_of_edges fun u v h => ?_
    have huv := (hedge u v).1 h
    simp only [List.mem_cons, Prod.mk.injEq, List.not_mem_nil, or_false] at huv
    obtain ⟨rfl, rfl⟩ | ⟨rfl, rfl⟩ | ⟨rfl, rfl⟩ := huv
    · exact hfirst
    · exact hsecond
    · exact hfirst.trans hsecond
  · refine path_of_edges fun u v h => .single ((hedge u v).2 ?_)
    have huv := (hedge' u v).1 h
    simp only [List.mem_cons, List.not_mem_nil, or_false] at huv ⊢
    exact huv.elim Or.inl fun h => Or.inr (Or.inl h)

end AsyncOrder
