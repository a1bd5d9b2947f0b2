import AsyncOrder.Proofs.Rewriting.Collapsing
import AsyncOrder.Proofs.Rewriting.Surviving

/-!
# What survives the collapsing of joins

One pass over the joins of an accepted `p` is enough, though lists change as it goes: a join comes
to wait on another token in place of one, never on fewer.  With `q` what is left:

    the joins of p that wait on one token are gone from q, and nothing else
                                                                          (collapseJoins_exact)
    no join of q waits on one token
    nothing that lives in q uses a result of what is gone
    from vertex i of a to vertex j of b a path leads in the resolved scopes of q
        ↔ one leads in those of p                               (a, b live in q)

A join that forwards a token is bypassed (`Staged.contracts_collapseJoin`), wherever its result is
used: by a loop to begin with, by what ends a loop or a branch, or by another join.
-/

namespace AsyncOrder.Program

open Relation

variable {p : Program} {c : Context} {t : ScopeTree} {o x z : OpId}

section

variable (hp : p.WellFormed)
include hp

/-- The joins that wait on one token are gone, and no join comes to wait on one. -/
theorem WellFormed.length_deps_collapseJoins (hz : p.collapseJoins.1.isLive z = true)
    (hkind : p.collapseJoins.1.kind z = .join) : (p.collapseJoins.1.deps z).length ≠ 1 := by
  obtain ⟨hprunes, hlive, swap, hdeps, -⟩ := hp.linked.prunes.collapsed_joins hp
  rw [hprunes.kind] at hkind
  rw [hdeps z hz, List.length_map]
  exact fun hone => ((hlive z).1 hz).2 ⟨hkind, hone⟩

/-- Bodies of computes live on, since they hold no joins. -/
theorem WellFormed.isLive_body_collapseJoins (ht : Laid p c [] none (p.funcs.map (·.body)) t)
    (hkind : p.kind o = .compute) (hx : x ∈ p.computeBody o) :
    p.collapseJoins.1.isLive x = true := by
  obtain ⟨-, hlive, -⟩ := hp.linked.prunes.collapsed_joins hp
  have hlt := (hp.linked.mem_nested_iff.1 (mem_nested_of_computeBody hx)).1
  refine (hlive x).2 ⟨hp.linked.isLive hlt, fun hjoin => ?_⟩
  have hprimitive := hp.isComputePrimitive_of_mem ht hkind hx
  rw [hjoin.1] at hprimitive
  cases hprimitive

end

/-- Collapsing erases the joins of one token, lets nothing use them, and keeps the paths between
the vertices of all others. -/
theorem collapseJoins_exact {source : String} (hsource : readProgram source = .ok p) :
    let q := p.collapseJoins.1
    (∀ z, q.isLive z = true ↔
      p.isLive z = true ∧ ¬ (p.kind z = .join ∧ (p.deps z).length = 1)) ∧
    (∀ z, q.isLive z = true → q.kind z = .join → (q.deps z).length ≠ 1) ∧
    (∀ o z, q.isLive o = true → q.isLive z = false → ∀ v ∈ (q.op z).results, v ∉ q.used o) ∧
    ∀ t c, p.scopeTree = .ok (t, c) → ∃ t' c', q.scopeTree = .ok (t', c') ∧
      ∀ a i b j, q.isLive a = true → q.isLive b = true →
        ((q.resolve c' t').tree.ReachesNth a i b j ↔
          (p.resolve c t).tree.ReachesNth a i b j) := by
  have hp := wellFormed_of_readProgram hsource
  have hq := hp.scoped.collapseJoins hp
  refine ⟨(hp.linked.prunes.collapsed_joins hp).2.1, fun z => hp.length_deps_collapseJoins,
    fun o z ho hz v hv hused => ?_, fun t c hbuild => ?_⟩
  · have hdefines : p.collapseJoins.1.definingOp? v = some z := by
      rw [hq.prunes.definingOp?]
      exact (hp.linked.definingOp?_of_result (hq.prunes.results z ▸ hv)).1
    rw [hq.prunes.isLive_of_inView hp.linked (hq.wellScoped o ho v hused) hdefines] at hz
    cases hz
  · have ht := (hp.nests.built hbuild).1
    obtain ⟨t', c', hbuild', ht'⟩ := hq.prunes.exists_scopeTree hp ht
    refine ⟨t', c', hbuild', fun a i b j ha hb => ?_⟩
    exact hq.reachesNth_congr hp ht ht' ha hb (hp.staged.transGen_collapseJoins hp ht ha hb)
      fun o _ hkind x hx => hp.isLive_body_collapseJoins ht hkind hx

/-- Joins forward a token to a loop, and what the loop carries to what ends it. -/
def handedTokens : String := "func @f(%n: index) \x7b
  %s = join
  %j = join [%s]
  %k = join [%j]
  %l = for %i = %n to %n step %n iter(%c = %k) \x7b
    %v = join [%c]
    yield %v
  \x7d
  %x = join [%l, %j]
\x7d
"

theorem collapseJoins_exact_handedTokens : ∃ p t c, readProgram handedTokens = .ok p ∧
    p.scopeTree = .ok (t, c) ∧ p.walk = [⟨0⟩, ⟨1⟩, ⟨2⟩, ⟨5⟩, ⟨3⟩, ⟨4⟩, ⟨6⟩] ∧
    p.collapseJoins.1.walk = [⟨0⟩, ⟨5⟩, ⟨4⟩, ⟨6⟩] ∧
    ∃ t' c', p.collapseJoins.1.scopeTree = .ok (t', c') ∧
      (p.collapseJoins.1.resolve c' t').tree.ReachesNth ⟨0⟩ 0 ⟨4⟩ 0 := by
  obtain ⟨p, t, c, hsource, hbuild, htest⟩ := passes_iff.1
    (show passes handedTokens (fun p t c =>
      let q := p.collapseJoins.1
      let s := (p.resolve c t).tree.root
      let owner := fun v => (s.vertices[v]?).bind (·.owner)
      (p.walk = [⟨0⟩, ⟨1⟩, ⟨2⟩, ⟨5⟩, ⟨3⟩, ⟨4⟩, ⟨6⟩] ∧ q.walk = [⟨0⟩, ⟨5⟩, ⟨4⟩, ⟨6⟩]) ∧
      (q.isLive ⟨0⟩ = true ∧ q.isLive ⟨4⟩ = true) ∧
      (s.op? 1 = some ⟨0⟩ ∧ owner 1 = some ⟨0⟩ ∧ s.op? 6 = some ⟨4⟩ ∧ owner 6 = some ⟨4⟩) ∧
      (1, 2) ∈ s.edges ∧ (2, 3) ∈ s.edges ∧ (3, 4) ∈ s.edges ∧ (4, 5) ∈ s.edges ∧
        (5, 6) ∈ s.edges) = true by decide +kernel)
  obtain ⟨⟨hwalk, hwalk'⟩, ⟨hfirst, hlast⟩, ⟨hop, howner, hop', howner'⟩, h₁, h₂, h₃, h₄, h₅⟩ :=
    of_decide_eq_true htest
  have hreaches : (p.resolve c t).tree.ReachesNth ⟨0⟩ 0 ⟨4⟩ 0 :=
    ⟨[], _, 1, 6, rfl, ⟨1, hop, rfl, Option.bind_eq_some_iff.1 howner⟩,
      ⟨6, hop', rfl, Option.bind_eq_some_iff.1 howner'⟩,
      ((((TransGen.single h₁).tail h₂).tail h₃).tail h₄).tail h₅⟩
  obtain ⟨-, -, -, hscopes⟩ := collapseJoins_exact hsource
  obtain ⟨t', c', hbuild', hpaths⟩ := hscopes t c hbuild
  exact ⟨p, t, c, hsource, hbuild, hwalk, hwalk', t', c', hbuild',
    (hpaths _ _ _ _ hfirst hlast).2 hreaches⟩

end AsyncOrder.Program
