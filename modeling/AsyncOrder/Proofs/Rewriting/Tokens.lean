import AsyncOrder.Proofs.Scope.Independence

/-!
# Refilled dependency lists

Rewriting changes dependency lists and nothing else.  Purging empties those of all waiters;
filling lets each of them wait on the tokens of its sources.  Where every operation that waits
on something is a waiter of the tree, a list holds afterwards just the tokens of the sources,
and what the lists were before has no influence:

    p.strip false = q.strip false →
      (p.rewriteTokens t).1.strip true = (q.rewriteTokens t).1.strip true
-/

namespace AsyncOrder.Program

variable {p q : Program} {o z : OpId} {token : ValueId} {ds : List ValueId} {s : Scope}
variable {t : ScopeTree} {keep : Bool}

/-! ## Setting one list -/

theorem ops_strip_setDeps : (p.setDeps o ds).strip false = p.strip false := by
  rw [strip, strip, setDeps, modifyOp]
  congr 1
  refine Array.ext_getElem? fun i => ?_
  rw [Array.getElem?_map, Array.getElem?_modify, Array.getElem?_map]
  cases p.ops[i]? with
  | none => simp
  | some a =>
    simp only [Option.map_some]
    split <;> rfl

theorem setDeps_strip : (p.strip true).setDeps o ds = (p.setDeps o ds).strip true := by
  rw [strip, strip, setDeps, modifyOp, setDeps, modifyOp]
  congr 1
  refine Array.ext_getElem? fun i => ?_
  rw [Array.getElem?_modify, Array.getElem?_map, Array.getElem?_map, Array.getElem?_modify]
  cases p.ops[i]? with
  | none => simp
  | some a =>
    simp only [Option.map_some]
    split <;> rfl

theorem setDeps_deps : p.setDeps o (p.deps o) = p := by
  rw [setDeps, modifyOp]
  congr 1
  refine Array.ext_getElem? fun i => ?_
  rw [Array.getElem?_modify]
  split
  · next hi =>
    cases ho : p.ops[i]? with
    | none => rfl
    | some a =>
      rw [deps, op, hi, ho]
      rfl
  · rfl

theorem setDeps_setDeps {ds' : List ValueId} :
    (p.setDeps o ds).setDeps o ds' = p.setDeps o ds' := by
  rw [setDeps, setDeps, modifyOp, modifyOp, setDeps, modifyOp]
  congr 1
  refine Array.ext_getElem? fun i => ?_
  rw [Array.getElem?_modify, Array.getElem?_modify, Array.getElem?_modify]
  split
  · cases p.ops[i]? <;> rfl
  · rfl

@[simp]
theorem size_ops_setDeps : (p.setDeps o ds).ops.size = p.ops.size := Array.size_modify

theorem deps_of_size_le (h : p.ops.size ≤ z.index) : p.deps z = [] := by
  rw [deps, op, Array.getElem?_eq_none h]
  rfl

theorem lt_of_mem_deps (h : token ∈ p.deps z) : z.index < p.ops.size := by
  by_contra hle
  rw [deps_of_size_le (Nat.le_of_not_lt hle)] at h
  exact absurd h List.not_mem_nil

theorem deps_setDeps : (p.setDeps o ds).deps z =
    if z = o ∧ o.index < p.ops.size then ds else p.deps z := by
  rw [deps, op, setDeps, modifyOp, Array.getElem?_modify]
  by_cases hz : z = o
  · subst hz
    by_cases hlt : z.index < p.ops.size
    · rw [if_pos rfl, if_pos ⟨rfl, hlt⟩, Array.getElem?_eq_getElem hlt]
      rfl
    · rw [if_pos rfl, if_neg fun h => hlt h.2, deps, op,
        Array.getElem?_eq_none (Nat.le_of_not_lt hlt)]
      rfl
  · have hindex : o.index ≠ z.index := fun h => hz (congrArg OpId.mk h.symm)
    rw [if_neg hindex, if_neg fun h => hz h.1]
    rfl

theorem mem_deps_addDep {v : ValueId} : v ∈ (p.addDep o token).deps z ↔
    v ∈ p.deps z ∨ z = o ∧ o.index < p.ops.size ∧ v = token := by
  rw [addDep]
  split
  · next hmem =>
    refine ⟨Or.inl, fun h => h.elim id ?_⟩
    rintro ⟨rfl, -, rfl⟩
    exact hmem
  · rw [deps_setDeps]
    split
    · next h =>
      obtain ⟨rfl, hlt⟩ := h
      simp [hlt]
    · next h =>
      refine ⟨Or.inl, fun hv => hv.elim id ?_⟩
      rintro ⟨rfl, hlt, -⟩
      exact absurd ⟨rfl, hlt⟩ h

/-- Without dependencies it makes no difference whether they are kept. -/
theorem strip_true_eq_strip_false (h : ∀ o, p.deps o = []) : p.strip true = p.strip false := by
  rw [strip, strip]
  congr 1
  refine Array.map_congr_left fun a ha => ?_
  obtain ⟨i, hi, rfl⟩ := Array.mem_iff_getElem.1 ha
  have hdeps : p.ops[i].deps = [] := by
    have := h ⟨i⟩
    rwa [deps, op, Array.getElem?_eq_getElem hi, Option.getD_some] at this
  simp [Operation.strip, hdeps]

/-! ## Purging -/

theorem purge_eq : (p.purge s).1 = (p.waiters s).foldl (fun p e => p.clearDeps e.2) p :=
  (List.foldl_hom Prod.fst fun _ _ => rfl).symm

theorem strip_purge : (p.purge s).1.strip false = p.strip false := by
  rw [purge_eq]
  generalize p.waiters s = l
  induction l generalizing p with
  | nil => rfl
  | cons e l ih => rw [List.foldl_cons, ih, clearDeps, ops_strip_setDeps]

theorem deps_purge (z : OpId) : (p.purge s).1.deps z = [] ∨
    (∀ v, (v, z) ∉ p.waiters s) ∧ (p.purge s).1.deps z = p.deps z := by
  rw [purge_eq]
  generalize p.waiters s = l
  induction l generalizing p with
  | nil => exact Or.inr ⟨fun _ => List.not_mem_nil, rfl⟩
  | cons e l ih =>
    rw [List.foldl_cons]
    rcases ih (p := p.clearDeps e.2) with h | ⟨hnot, h⟩
    · exact Or.inl h
    · rw [h, clearDeps, deps_setDeps]
      by_cases hz : z = e.2
      · left
        split
        · rfl
        · next hout => exact deps_of_size_le (Nat.le_of_not_lt fun h => hout ⟨hz, hz ▸ h⟩)
      · refine Or.inr ⟨fun v hv => ?_, if_neg fun h => hz h.1⟩
        rcases List.mem_cons.1 hv with rfl | hv
        · exact hz rfl
        · exact hnot v hv

theorem purgeAll_eq : (p.purgeAll t).1 = t.toList.foldl (fun p s => (p.purge s).1) p :=
  (List.foldl_hom Prod.fst fun _ _ => rfl).symm

theorem waiters_purge (s' : Scope) : (p.purge s).1.waiters s' = p.waiters s' := by
  rw [← @waiters_strip false, strip_purge, waiters_strip]

theorem strip_purgeAll : (p.purgeAll t).1.strip false = p.strip false := by
  rw [purgeAll_eq]
  generalize t.toList = l
  induction l generalizing p with
  | nil => rfl
  | cons s l ih => rw [List.foldl_cons, ih, strip_purge]

/-- The operations of a tree that wait are without dependencies after purging. -/
theorem deps_purgeAll (z : OpId) (hz : p.deps z ≠ [] → ∃ s ∈ t.toList, ∃ v, (v, z) ∈ p.waiters s) :
    (p.purgeAll t).1.deps z = [] := by
  rw [purgeAll_eq]
  generalize t.toList = l at hz
  induction l generalizing p with
  | nil =>
    by_contra hne
    obtain ⟨s, hs, -⟩ := hz hne
    exact absurd hs List.not_mem_nil
  | cons s l ih =>
    rw [List.foldl_cons]
    refine ih fun hne => ?_
    rcases p.deps_purge (s := s) z with h | ⟨hnot, h⟩
    · exact absurd h hne
    · obtain ⟨s', hs', v, hv⟩ := hz (h ▸ hne)
      rcases List.mem_cons.1 hs' with rfl | hs'
      · exact absurd hv (hnot v)
      · exact ⟨s', hs', v, (waiters_purge s').symm ▸ hv⟩

/-! ## Filling -/

end AsyncOrder.Program

namespace AsyncOrder.Growing

open Program

variable {g : Growing} {o z : OpId} {token : ValueId} {waits : List (OpId × ValueId)}

/-- The program with the positions taken out. -/
def strip (g : Growing) : Growing := ⟨g.program.strip true, g.added⟩

theorem strip_wait : (g.wait o token).program.strip false = g.program.strip false := by
  rw [wait]
  split
  · rw [addDep]
    split
    · rfl
    · exact ops_strip_setDeps
  · rfl

theorem wait_strip : g.strip.wait o token = (g.wait o token).strip := by
  have hlacks : g.strip.program.lacksDep o token = g.program.lacksDep o token := by
    rw [lacksDep, lacksDep, strip, deps_strip]
  rw [wait, wait, hlacks]
  split
  · rw [addDep, addDep, strip, deps_strip]
    split
    · rfl
    · rw [setDeps_strip]
      rfl
  · rfl

theorem mem_deps_wait {v : ValueId} : v ∈ (g.wait o token).program.deps z ↔
    v ∈ g.program.deps z ∨ z = o ∧ o.index < g.program.ops.size ∧ v = token := by
  have hwait : (g.wait o token).program = g.program.addDep o token := by
    rw [wait, lacksDep, addDep]
    by_cases hmem : token ∈ g.program.deps o <;> simp [hmem]
  rw [hwait, mem_deps_addDep]

theorem size_ops_wait : (g.wait o token).program.ops.size = g.program.ops.size := by
  rw [← @size_ops_strip false, strip_wait, size_ops_strip]

theorem strip_waitEach (waits : List (OpId × ValueId)) (g : Growing) :
    (g.waitEach waits).program.strip false = g.program.strip false := by
  induction waits generalizing g with
  | nil => rfl
  | cons e waits ih => rw [waitEach, List.foldl_cons, ← waitEach, ih, strip_wait]

theorem waitEach_strip (waits : List (OpId × ValueId)) (g : Growing) :
    g.strip.waitEach waits = (g.waitEach waits).strip := by
  induction waits generalizing g with
  | nil => rfl
  | cons e waits ih =>
    have hcons : ∀ g : Growing, g.waitEach (e :: waits) = (g.wait e.1 e.2).waitEach waits :=
      fun _ => rfl
    rw [hcons, hcons, wait_strip, ih]

theorem mem_deps_waitEach {v : ValueId} (waits : List (OpId × ValueId)) (g : Growing) :
    v ∈ (g.waitEach waits).program.deps z ↔
      v ∈ g.program.deps z ∨ z.index < g.program.ops.size ∧ (z, v) ∈ waits := by
  induction waits generalizing g with
  | nil => simp [waitEach]
  | cons e waits ih =>
    rw [waitEach, List.foldl_cons, ← waitEach, ih, mem_deps_wait, size_ops_wait, List.mem_cons,
      Prod.ext_iff]
    constructor
    · rintro ((h | ⟨rfl, hlt, rfl⟩) | ⟨hlt, h⟩)
      · exact Or.inl h
      · exact Or.inr ⟨hlt, Or.inl ⟨rfl, rfl⟩⟩
      · exact Or.inr ⟨hlt, Or.inr h⟩
    · rintro (h | ⟨hlt, ⟨rfl, rfl⟩ | h⟩)
      · exact Or.inl (Or.inl h)
      · exact Or.inl (Or.inr ⟨rfl, hlt, rfl⟩)
      · exact Or.inr ⟨hlt, h⟩

end AsyncOrder.Growing

namespace AsyncOrder.Program

variable {p q : Program} {o z : OpId} {token : ValueId} {s : Scope} {t : ScopeTree}

theorem fillAll_eq : (p.fillAll t).1 = t.toList.foldl (fun p s => (p.fill s).program) p :=
  (List.foldl_hom Prod.fst fun _ _ => rfl).symm

theorem strip_fill : (p.fill s).program.strip false = p.strip false :=
  Growing.strip_waitEach _ _

theorem fill_strip : ((p.strip true).fill s).program = (p.fill s).program.strip true := by
  rw [fill, fill]
  simp only [waiters_strip, fillTokens_strip]
  exact congrArg Growing.program (Growing.waitEach_strip _ p.growing)

theorem mem_deps_fill : token ∈ (p.fill s).program.deps z ↔ token ∈ p.deps z ∨
    z.index < p.ops.size ∧ ∃ v, (v, z) ∈ p.waiters s ∧ token ∈ p.fillTokens s v z := by
  rw [fill, Growing.mem_deps_waitEach]
  refine or_congr_right (and_congr_right fun _ => ?_)
  simp only [List.mem_flatMap, List.mem_map, Prod.mk.injEq, Prod.exists]
  constructor
  · rintro ⟨v, o, hv, w, hw, rfl, rfl⟩
    exact ⟨v, hv, hw⟩
  · rintro ⟨v, hv, hw⟩
    exact ⟨v, z, hv, token, hw, rfl, rfl⟩

theorem strip_fillAll : (p.fillAll t).1.strip false = p.strip false := by
  rw [fillAll_eq]
  generalize t.toList = l
  induction l generalizing p with
  | nil => rfl
  | cons s l ih => rw [List.foldl_cons, ih, strip_fill]

theorem fillAll_strip : ((p.strip true).fillAll t).1 = (p.fillAll t).1.strip true := by
  rw [fillAll_eq, fillAll_eq]
  generalize t.toList = l
  induction l generalizing p with
  | nil => rfl
  | cons s l ih => rw [List.foldl_cons, fill_strip, ih, List.foldl_cons]

theorem mem_deps_fillAll : token ∈ (p.fillAll t).1.deps z ↔ token ∈ p.deps z ∨
    z.index < p.ops.size ∧ ∃ s ∈ t.toList, ∃ v, (v, z) ∈ p.waiters s ∧
      token ∈ p.fillTokens s v z := by
  rw [fillAll_eq]
  generalize t.toList = l
  induction l generalizing p with
  | nil => simp
  | cons s l ih =>
    have hsize : (p.fill s).program.ops.size = p.ops.size := by
      rw [← @size_ops_strip false, strip_fill, size_ops_strip]
    have hwaiters : ∀ s', (p.fill s).program.waiters s' = p.waiters s' := fun s' => by
      rw [← @waiters_strip false, strip_fill, waiters_strip]
    have htokens : ∀ s' v, (p.fill s).program.fillTokens s' v z = p.fillTokens s' v z :=
      fun s' v => by rw [← @fillTokens_strip false, strip_fill, fillTokens_strip]
    rw [List.foldl_cons, ih, mem_deps_fill, hsize]
    simp only [hwaiters, htokens, List.mem_cons, exists_eq_or_imp]
    rw [or_assoc, ← and_or_left]

/-! ## Rewriting -/

/-- Rewriting changes dependency lists only. -/
theorem strip_rewriteTokens : (p.rewriteTokens t).1.strip false = p.strip false := by
  rw [rewriteTokens]
  exact strip_fillAll.trans strip_purgeAll

/-- Every operation that waits on something is a waiter of the tree. -/
def Waits (p : Program) (t : ScopeTree) : Prop :=
  ∀ o, p.deps o ≠ [] → ∃ s ∈ t.toList, ∃ v, (v, o) ∈ p.waiters s

/-- A list holds the tokens of the sources. -/
theorem mem_deps_rewriteTokens (hp : p.Waits t) : token ∈ (p.rewriteTokens t).1.deps z ↔
    z.index < p.ops.size ∧ ∃ s ∈ t.toList, ∃ v, (v, z) ∈ p.waiters s ∧
      token ∈ p.fillTokens s v z := by
  have hsize : (p.purgeAll t).1.ops.size = p.ops.size := by
    rw [← @size_ops_strip false, strip_purgeAll, size_ops_strip]
  have hwaiters : ∀ s, (p.purgeAll t).1.waiters s = p.waiters s := fun s => by
    rw [← @waiters_strip false, strip_purgeAll, waiters_strip]
  have htokens : ∀ s v, (p.purgeAll t).1.fillTokens s v z = p.fillTokens s v z := fun s v => by
    rw [← @fillTokens_strip false, strip_purgeAll, fillTokens_strip]
  rw [rewriteTokens]
  simp only [mem_deps_fillAll, hsize, hwaiters, htokens, deps_purgeAll z (hp z),
    List.not_mem_nil, false_or]

/-- What the lists were before has no influence. -/
theorem rewriteTokens_congr (hp : p.Waits t) (hq : q.Waits t) (h : p.strip false = q.strip false) :
    (p.rewriteTokens t).1.strip true = (q.rewriteTokens t).1.strip true := by
  have hpurged : ∀ p : Program, p.Waits t → (p.purgeAll t).1.strip true = p.strip false :=
    fun p hp => (strip_true_eq_strip_false fun o => deps_purgeAll o (hp o)).trans strip_purgeAll
  have hfilled : ∀ p : Program, p.Waits t →
      (p.rewriteTokens t).1.strip true = ((p.strip false).fillAll t).1 := by
    intro p hp
    rw [rewriteTokens, ← hpurged p hp, fillAll_strip]
  rw [hfilled p hp, hfilled q hq, h]

end AsyncOrder.Program
