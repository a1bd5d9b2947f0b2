import AsyncOrder.Proofs.Rewriting.Tokens
import AsyncOrder.Program.Printer
import AsyncOrder.Rewriting.Cleanup

/-!
# Cleaning up and positions

Cleaning up does not look at positions, and neither does the printer:

    (p.strip true).cleanup.1 = p.cleanup.1.strip true,    (p.strip true).text = p.text
-/

namespace AsyncOrder

namespace Program

variable {p : Program} {o : OpId} {v token : ValueId}

/-! ## Changing a program -/

theorem modifyOp_strip (f : Operation → Operation)
    (hf : ∀ a : Operation, f (a.strip true) = (f a).strip true) :
    (p.strip true).modifyOp o f = (p.modifyOp o f).strip true := by
  rw [strip, strip, modifyOp, modifyOp]
  congr 1
  refine Array.ext_getElem? fun i => ?_
  rw [Array.getElem?_modify, Array.getElem?_map, Array.getElem?_map, Array.getElem?_modify]
  cases p.ops[i]? with
  | none => simp
  | some a =>
    simp only [Option.map_some]
    split
    · exact congrArg some (hf a)
    · rfl

theorem mapLive_strip {f : Operation → Operation}
    (hf : ∀ a : Operation, f (a.strip true) = (f a).strip true) :
    (p.strip true).mapLive f = (p.mapLive f).strip true := by
  rw [strip, strip, mapLive, mapLive]
  congr 1
  rw [Array.map_map, Array.map_map]
  congr 1
  funext a
  simp only [Function.comp_apply]
  split
  · next h => rw [if_pos (by exact h)]
  · next h => rw [if_neg (by exact h), hf]

theorem foldl_strip {α : Type} {f : Program → α → Program}
    (hf : ∀ p a, f (p.strip true) a = (f p a).strip true) (l : List α) (p : Program) :
    l.foldl f (p.strip true) = (l.foldl f p).strip true := by
  induction l generalizing p with
  | nil => rfl
  | cons a l ih => rw [List.foldl_cons, hf, ih, List.foldl_cons]

theorem addDep_strip : (p.strip true).addDep o token = (p.addDep o token).strip true := by
  rw [addDep, addDep, deps_strip]
  split
  · rfl
  · exact setDeps_strip

theorem replaceUses_strip (old new : ValueId) :
    (p.strip true).replaceUses old new = (p.replaceUses old new).strip true :=
  mapLive_strip fun _ => rfl

theorem eraseTokenUses_strip :
    (p.strip true).eraseTokenUses token = (p.eraseTokenUses token).strip true :=
  mapLive_strip fun _ => rfl

theorem unlink_strip : (p.strip true).unlink o = (p.unlink o).strip true := by
  rw [unlink, op_strip, parent_strip]
  rfl

theorem subtree_strip : (p.strip true).subtree o = p.subtree o := by
  have hnested : (p.strip true).nested = p.nested := funext fun _ => nested_strip
  rw [subtree, hnested, size_ops_strip]
  rfl

theorem eraseOp_strip : (p.strip true).eraseOp o = (p.eraseOp o).strip true := by
  simp only [eraseOp, unlink_strip, subtree_strip]
  exact foldl_strip (fun _ _ => modifyOp_strip (fun a => { a with erased := true }) fun _ => rfl) _ _

theorem modifyBlock_strip (b : BlockId) (f : Block → Block) :
    (p.strip true).modifyBlock b f = (p.modifyBlock b f).strip true := rfl

theorem renumberArgs_strip (b : BlockId) :
    (p.strip true).renumberArgs b = (p.renumberArgs b).strip true :=
  foldl_strip (f := fun p (e : ValueId × Nat) => p.modifyValue e.1 fun value =>
    { value with origin := .arg b e.2 }) (fun _ _ => rfl) _ _

theorem removeParam_strip (i : Nat) :
    (p.strip true).removeParam o i = (p.removeParam o i).strip true := by
  rw [removeParam, removeParam, kind_strip, body?_strip]
  split
  · simp only [modifyOp_strip (fun a => { a with operands := a.operands.eraseIdx i }) fun _ => rfl,
      modifyBlock_strip, renumberArgs_strip]
  · rfl

/-! ## The passes -/

/-- The program of what a change gives does not depend on positions. -/
def Unpositioned (change : Program → OpId → Program × Nat) : Prop :=
  ∀ p o, (change (p.strip true) o).1 = (change p o).1.strip true

theorem changeEach_eq (ops : List OpId) (change : Program → OpId → Program × Nat) :
    (p.changeEach ops change).1 = ops.foldl (fun p o => (change p o).1) p :=
  (List.foldl_hom Prod.fst fun _ _ => rfl).symm

theorem changeEach_strip {change : Program → OpId → Program × Nat} (h : Unpositioned change)
    (ops : List OpId) : ((p.strip true).changeEach ops change).1 =
      (p.changeEach ops change).1.strip true := by
  rw [changeEach_eq, changeEach_eq]
  exact foldl_strip (fun p o => h p o) _ _

theorem unpositioned_dedupDepsOf : Unpositioned dedupDepsOf := by
  intro p o
  rw [dedupDepsOf, dedupDepsOf, deps_strip, setDeps_strip]

theorem dedupDeps_strip : (p.strip true).dedupDeps.1 = p.dedupDeps.1.strip true := by
  rw [dedupDeps, walk_strip, changeEach_strip unpositioned_dedupDepsOf]
  rfl

/-! ## Dead computes -/

theorem deadComputes_strip (uses : UseMap) :
    (p.strip true).deadComputes uses = p.deadComputes uses := by
  have hwalk : (p.strip true).walkBlock = p.walkBlock := funext fun _ => walkBlock_strip
  have hdead : (p.strip true).isDeadCompute uses = p.isDeadCompute uses := by
    funext o
    simp only [isDeadCompute, kind_strip, op_strip, results_strip, body?_strip, hwalk]
  rw [deadComputes, deadComputes, walk_strip, hdead]

end Program

namespace Sweep

/-- The program with the positions taken out. -/
def strip (w : Sweep) : Sweep := ⟨w.program.strip true, w.uses⟩

variable {w : Sweep} {o : OpId} {token : ValueId}

theorem foldl_strip {α : Type} {f : Sweep → α → Sweep} (hf : ∀ w a, f w.strip a = (f w a).strip)
    (l : List α) (w : Sweep) : l.foldl f w.strip = (l.foldl f w).strip := by
  induction l generalizing w with
  | nil => rfl
  | cons a l ih => rw [List.foldl_cons, hf, ih, List.foldl_cons]

theorem wait_strip : w.strip.wait o token = (w.wait o token).strip := by
  have hlacks : w.strip.program.lacksDep o token = w.program.lacksDep o token := by
    rw [Program.lacksDep, Program.lacksDep, strip, Program.deps_strip]
  rw [wait, wait, hlacks]
  split
  · rw [strip, Program.addDep_strip, Program.deps_strip]
    rfl
  · rfl

theorem inherit_strip (tokens : List ValueId) :
    w.strip.inherit tokens o = (w.inherit tokens o).strip := by
  rw [inherit, inherit, strip, Program.isLive_strip]
  split
  · exact foldl_strip (fun _ _ => wait_strip) _ _
  · rfl

theorem eraseCompute_strip : w.strip.eraseCompute o = (w.eraseCompute o).strip := by
  have hinherit : ∀ (tokens : List ValueId) (waiters : List OpId),
      waiters.foldl (fun w x => w.inherit tokens x) w.strip =
        (waiters.foldl (fun w x => w.inherit tokens x) w).strip :=
    fun tokens waiters => foldl_strip (fun _ _ => inherit_strip tokens) waiters w
  have hresults : (w.strip.program.op o).results = (w.program.op o).results := by
    rw [strip, Program.op_strip, Program.results_strip]
  have hdeps : w.strip.program.deps o = w.program.deps o := Program.deps_strip
  rw [eraseCompute, eraseCompute, hresults]
  split
  · rfl
  · simp only [hdeps, hinherit]
    rw [strip, Program.eraseTokenUses_strip, Program.eraseOp_strip]
    rfl

end Sweep

namespace Program

variable {p : Program} {o : OpId} {v token : ValueId}

theorem sweepDeadComputes_strip (limit : Nat) (p : Program) :
    (sweepDeadComputes limit (p.strip true)).1 = (sweepDeadComputes limit p).1.strip true := by
  induction limit generalizing p with
  | zero => rfl
  | succ limit ih =>
    rw [sweepDeadComputes, sweepDeadComputes, useMap_strip, deadComputes_strip]
    split
    · rfl
    · have hswept := Sweep.foldl_strip (fun w o => Sweep.eraseCompute_strip (w := w) (o := o))
        (p.deadComputes p.useMap) ⟨p, p.useMap⟩
      rw [show (⟨p.strip true, p.useMap⟩ : Sweep) = Sweep.strip ⟨p, p.useMap⟩ from rfl, hswept]
      exact ih _

theorem removeDeadComputes_strip :
    (p.strip true).removeDeadComputes.1 = p.removeDeadComputes.1.strip true := by
  rw [removeDeadComputes, size_ops_strip]
  exact sweepDeadComputes_strip _ p

/-! ## The other passes -/

theorem unpositioned_collapseJoin : Unpositioned collapseJoin := by
  intro p o
  rw [collapseJoin, collapseJoin, isLive_strip, kind_strip, deps_strip, op_strip, results_strip]
  split
  · split
    · rw [replaceUses_strip, eraseOp_strip]
    · rfl
  · rfl

theorem collapseJoins_strip : (p.strip true).collapseJoins.1 = p.collapseJoins.1.strip true := by
  rw [collapseJoins, walk_strip, changeEach_strip unpositioned_collapseJoin]
  rfl

theorem isControlToken_strip {keep : Bool} :
    (p.strip keep).isControlToken v = p.isControlToken v := by
  have hkind : (p.strip keep).kind = p.kind := funext fun _ => kind_strip
  rw [isControlToken, isControlToken, carriedOwner?_strip, definingOp?_strip, hkind]

theorem controlTokens_strip : (p.strip true).controlTokens o = p.controlTokens o := by
  have hcontrol : (p.strip true).isControlToken = p.isControlToken :=
    funext fun _ => isControlToken_strip
  have hbehind : (p.strip true).waitsBehind = p.waitsBehind := by
    funext v
    simp only [waitsBehind, isControlToken_strip, definingOp?_strip, kind_strip, deps_strip]
  rw [controlTokens, controlTokens, hcontrol, hbehind, deps_strip, values_strip]

theorem unpositioned_limitDepsOf : Unpositioned limitDepsOf := by
  intro p o
  have hkept : ∀ q : Program, (q.strip true).keptDep = q.keptDep := by
    intro q
    funext v
    rw [keptDep, keptDep, definingOp?_strip, isControlToken_strip]
  have hadd : ∀ tokens : List ValueId, tokens.foldl (fun q token => q.addDep o token)
      (p.strip true) = (tokens.foldl (fun q token => q.addDep o token) p).strip true :=
    fun tokens => foldl_strip (fun _ _ => addDep_strip) tokens p
  rw [limitDepsOf, limitDepsOf, kind_strip]
  split
  · simp only [controlTokens_strip, hadd, hkept, deps_strip, setDeps_strip]
  · rfl

theorem limitHierarchyDeps_strip :
    (p.strip true).limitHierarchyDeps.1 = p.limitHierarchyDeps.1.strip true := by
  rw [limitHierarchyDeps, walk_strip, changeEach_strip unpositioned_limitDepsOf]
  rfl

theorem removeUnusedParamsOf_eq : (p.removeUnusedParamsOf o).1 =
    (p.hierarchyPairs o).zipIdx.reverse.foldl
      (fun p e => if p.isUsed e.1.2 then p else p.removeParam o e.2) p := by
  refine (List.foldl_hom Prod.fst fun x e => ?_).symm
  by_cases hused : x.1.isUsed e.1.2 = true
  · simp only [hused, ite_true]
  · simp only [hused, if_false, Bool.false_eq_true]

theorem unpositioned_removeUnusedParamsOf : Unpositioned removeUnusedParamsOf := by
  intro p o
  rw [removeUnusedParamsOf_eq, removeUnusedParamsOf_eq, hierarchyPairs_strip]
  refine foldl_strip (fun p e => ?_) _ p
  rw [isUsed_strip, removeParam_strip]
  split <;> rfl

theorem removeUnusedParams_strip :
    (p.strip true).removeUnusedParams.1 = p.removeUnusedParams.1.strip true := by
  rw [removeUnusedParams, walk_strip, changeEach_strip unpositioned_removeUnusedParamsOf]
  rfl

/-- Cleaning up does not look at positions. -/
theorem cleanup_strip : (p.strip true).cleanup.1 = p.cleanup.1.strip true := by
  simp only [cleanup, dedupDeps_strip, removeDeadComputes_strip, collapseJoins_strip,
    limitHierarchyDeps_strip, removeUnusedParams_strip]

end Program

end AsyncOrder
