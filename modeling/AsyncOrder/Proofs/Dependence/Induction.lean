import AsyncOrder.Dependence.Induction
import AsyncOrder.Proofs.Dependence.Passing
import AsyncOrder.Proofs.Scope.Producing
import Mathlib.Data.List.Induction

/-!
# What induction variables are found

The search behind an operation keeps a worklist, takes the last value from it and puts there what
that is computed from.  It ends on every program with the trace, after no more than
`inductionLimit` values.  Where its index operands are computed from so few values, all of these
are met, and the induction variables among them are reported, each once:

    v ∈ (p.inductionTrace o).inductionVars ↔ (∃ z, (p.kind z).isLoop ∧ p.inductionVar? z = some v) ∧
      ∃ s ∈ p.indexOperands o, ReflTransGen p.ComputedFrom s v               (inductionTrace_exact)

From a result of a conditional the search goes on to the condition, and not to what the branches
yield (`not_inductionTrace_complete`).
-/

namespace AsyncOrder

open Lowering Program Relation

variable {p : Program} {o z : OpId} {v w : ValueId}

namespace Program

/-! ## Dependence -/

/-- `v` is computed from `w`: what defines it has the operand `w`, or is a compute that yields `w`
there, or `v` is a parameter of a call that takes `w`. -/
inductive ComputedFrom (p : Program) (v w : ValueId) : Prop
  | operand {z : OpId} (hkind : p.kind z ≠ .compute) (hv : v ∈ (p.op z).results)
      (hw : w ∈ (p.op z).operands)
  | yielded {z y : OpId} {b : BlockId} {i : Nat} (hkind : p.kind z = .compute)
      (hv : (p.op z).results[i + 1]? = some v) (hb : p.body? z = some b)
      (hy : p.terminator? b = some y) (hw : (p.op y).operands[i]? = some w)
  | handed (h : p.HandsOn w v)

/-- The operands that are followed. -/
def indexOperands (p : Program) (o : OpId) : List ValueId :=
  (p.op o).operands.filter fun v => !(p.valueType v).isMemref && !(p.valueType v).isToken

theorem mem_indexOperands : v ∈ p.indexOperands o ↔
    v ∈ (p.op o).operands ∧ p.valueType v = .index := by
  rw [indexOperands, List.mem_filter]
  cases p.valueType v <;> simp [ValueType.isMemref, ValueType.isToken]

theorem argOwner?_eq_some_iff {b : BlockId} {i : Nat} :
    p.argOwner? v = some (b, i) ↔ (p.value v).origin = .arg b i := by
  rw [argOwner?]
  cases (p.value v).origin <;> simp

theorem hierarchyArg?_eq_some_iff {ids i : Nat} : p.hierarchyArg? v = some (z, ids, i) ↔
    ∃ b level, (p.value v).origin = .arg b i ∧ (p.block b).parentOp = some z ∧
      p.kind z = .hierarchy level ids := by
  rw [hierarchyArg?]
  constructor
  · intro h
    split at h
    next => cases h
    next b i harg =>
      split at h
      next => cases h
      next owner howner =>
        split at h
        next level ids hkind =>
          cases h
          exact ⟨b, level, argOwner?_eq_some_iff.1 harg, howner, hkind⟩
        next => cases h
  · rintro ⟨b, level, horigin, howner, hkind⟩
    simp [argOwner?_eq_some_iff.2 horigin, howner, hkind]

theorem paramOwner?_eq_some_iff {j : Nat} : p.paramOwner? v = some (z, j) ↔
    ∃ b level ids, (p.value v).origin = .arg b (ids + j) ∧ (p.block b).parentOp = some z ∧
      p.kind z = .hierarchy level ids := by
  rw [paramOwner?]
  constructor
  · intro h
    split at h
    next owner ids i harg =>
      split at h
      next hle =>
        cases h
        obtain ⟨b, level, horigin, howner, hkind⟩ := hierarchyArg?_eq_some_iff.1 harg
        exact ⟨b, level, ids, by rw [horigin, Nat.add_sub_cancel' hle], howner, hkind⟩
      next => cases h
    next => cases h
  · rintro ⟨b, level, ids, horigin, howner, hkind⟩
    rw [hierarchyArg?_eq_some_iff.2 ⟨b, level, horigin, howner, hkind⟩]
    simp

namespace WellFormed

variable (hp : p.WellFormed)
include hp

theorem owner_of_body? {b : BlockId} (hb : p.body? z = some b) : (p.block b).parentOp = some z :=
  (hp.linked.mem_regions z b).1 (List.mem_of_head? hb)

theorem body?_of_owner {b : BlockId} {r : Region} (hkind : bodyRegions (p.kind z) = [r])
    (hb : (p.block b).parentOp = some z) : p.body? z = some b := by
  obtain ⟨b', hregions, hbody, -⟩ := hp.regions_eq_singleton (hp.linked.owner_lt hb) hkind
  have hmem := (hp.linked.mem_regions z b).2 hb
  rw [hregions, List.mem_singleton] at hmem
  rw [hbody, hmem]

/-- The first argument of the body of a loop. -/
theorem isSome_inductionOwner? (hv : v.index < p.values.size) :
    (p.inductionOwner? v).isSome = true ↔
      ∃ z, (p.kind z).isLoop = true ∧ p.inductionVar? z = some v := by
  rw [inductionOwner?]
  constructor
  · intro h
    split at h
    next b harg =>
      obtain ⟨z, hz⟩ := Option.isSome_iff_exists.1 h
      obtain ⟨howner, hloop⟩ := Option.filter_eq_some_iff.1 hz
      have hregions : bodyRegions (p.kind z) = [.loop] := by
        cases hk : p.kind z <;> simp_all [bodyRegions, OpKind.isLoop]
      refine ⟨z, hloop, ?_⟩
      rw [inductionVar?, hp.body?_of_owner hregions howner, Option.bind_some,
        List.head?_eq_getElem?]
      exact (hp.linked.args b 0 v).2 ⟨hv, argOwner?_eq_some_iff.1 harg⟩
    next => cases h
  · rintro ⟨z, hloop, hvar⟩
    obtain ⟨b, hb, hhead⟩ := Option.bind_eq_some_iff.1 hvar
    rw [List.head?_eq_getElem?] at hhead
    rw [argOwner?_eq_some_iff.2 ((hp.linked.args b 0 v).1 hhead).2]
    simp [hp.owner_of_body? hb, hloop, Option.filter]

theorem outerOperand?_eq_some_iff (hv : v.index < p.values.size) :
    p.outerOperand? v = some w ↔ p.HandsOn w v := by
  rw [outerOperand?, Option.bind_eq_some_iff]
  constructor
  · rintro ⟨⟨z, j⟩, hparam, hw⟩
    obtain ⟨b, level, ids, horigin, howner, hkind⟩ := paramOwner?_eq_some_iff.1 hparam
    have hbody := hp.body?_of_owner (by rw [hkind]; rfl) howner
    have harg := (hp.linked.args b (ids + j) v).2 ⟨hv, horigin⟩
    refine ⟨z, hp.mem_walk.2 (hp.linked.owner_lt howner), ?_⟩
    rw [hierarchyPairs, hkind, hbody]
    refine List.mem_of_getElem? (List.getElem?_zip_eq_some.2 ⟨hw, ?_⟩)
    rwa [List.getElem?_drop]
  · rintro ⟨z, -, hpair⟩
    obtain ⟨j, hj⟩ := List.mem_iff_getElem?.1 hpair
    obtain ⟨level, ids, b, hkind, hbody, hw, harg⟩ := call_of_pair hj
    exact ⟨(z, j), paramOwner?_eq_some_iff.2 ⟨b, level, ids, ((hp.linked.args b _ v).1 harg).2,
      hp.owner_of_body? hbody, hkind⟩, hw⟩

theorem yieldedFor?_eq_some_iff : p.yieldedFor? z v = some w ↔
    ∃ i b y, (p.op z).results[i + 1]? = some v ∧ p.body? z = some b ∧ p.terminator? b = some y ∧
      (p.op y).operands[i]? = some w := by
  rw [yieldedFor?]
  constructor
  · intro h
    split at h
    next i y hidx hy =>
      obtain ⟨b, hb, hy⟩ := Option.bind_eq_some_iff.1 hy
      obtain ⟨hlt, heq, -⟩ := List.idxOf?_eq_some_iff.1 hidx
      exact ⟨i, b, y, List.getElem?_eq_some_iff.2 ⟨hlt, heq⟩, hb, hy, h⟩
    next => cases h
  · rintro ⟨i, b, y, hv, hb, hy, hw⟩
    rw [hp.linked.idxOf?_results hv, hb, Option.bind_some, hy]
    exact hw

theorem leads_computedFrom (hv : v.index < p.values.size) :
    Leads p.computedFrom v w ↔ p.ComputedFrom v w := by
  rw [Leads, computedFrom]
  cases hdef : p.definingOp? v with
  | none =>
    have hnone : ∀ z, v ∉ (p.op z).results := fun z hz => by
      rw [(hp.linked.definingOp?_eq_some_iff hv).2 hz] at hdef
      cases hdef
    simp only [Option.mem_toList, hp.outerOperand?_eq_some_iff hv]
    refine ⟨.handed, fun h => ?_⟩
    cases h with
    | operand _ hz _ => exact absurd hz (hnone _)
    | yielded _ hz _ _ _ => exact absurd (List.mem_of_getElem? hz) (hnone _)
    | handed h => exact h
  | some z =>
    have hz := (hp.linked.definingOp?_eq_some_iff hv).1 hdef
    have heq : ∀ {z'}, v ∈ (p.op z').results → z' = z := fun hz' =>
      Option.some.inj (((hp.linked.definingOp?_eq_some_iff hv).2 hz').symm.trans hdef)
    have hnot : ¬ p.HandsOn w v := by
      rintro ⟨call, -, hpair⟩
      obtain ⟨j, hj⟩ := List.mem_iff_getElem?.1 hpair
      obtain ⟨level, ids, b, -, -, -, harg⟩ := call_of_pair hj
      rw [definingOp?, ((hp.linked.args b _ v).1 harg).2] at hdef
      cases hdef
    by_cases hkind : p.kind z = .compute
    · simp only [if_pos hkind, Option.mem_toList, hp.yieldedFor?_eq_some_iff]
      constructor
      · rintro ⟨i, b, y, hres, hb, hy, hw⟩
        exact .yielded hkind hres hb hy hw
      · intro h
        cases h with
        | operand hkind' hz' _ => exact absurd hkind (heq hz' ▸ hkind')
        | yielded _ hres hb hy hw =>
          obtain rfl := heq (List.mem_of_getElem? hres)
          exact ⟨_, _, _, hres, hb, hy, hw⟩
        | handed h => exact absurd h hnot
    · simp only [if_neg hkind, List.mem_reverse]
      refine ⟨.operand hkind hz, fun h => ?_⟩
      cases h with
      | operand _ hz' hw => rwa [heq hz'] at hw
      | yielded hkind' hres _ _ _ => exact absurd (heq (List.mem_of_getElem? hres) ▸ hkind') hkind
      | handed h => exact absurd h hnot

theorem lt_of_mem_operands (hw : w ∈ (p.op z).operands) : w.index < p.values.size := by
  obtain ⟨i, hi⟩ := List.mem_iff_getElem?.1 hw
  exact hp.used z (lt_of_operand hi) w (List.mem_append_left _ hw)

theorem lt_of_handsOn (h : p.HandsOn w v) : w.index < p.values.size := by
  obtain ⟨z, -, hpair⟩ := h
  obtain ⟨j, hj⟩ := List.mem_iff_getElem?.1 hpair
  obtain ⟨-, -, -, -, -, hw, -⟩ := call_of_pair hj
  exact hp.lt_of_mem_operands (List.mem_of_getElem? hw)

theorem lt_of_computedFrom (h : p.ComputedFrom v w) : w.index < p.values.size := by
  cases h with
  | operand _ _ hw => exact hp.lt_of_mem_operands hw
  | yielded _ _ _ _ hw => exact hp.lt_of_mem_operands (List.mem_of_getElem? hw)
  | handed h => exact hp.lt_of_handsOn h

theorem lt_of_reflTransGen {s : ValueId} (hs : s ∈ p.indexOperands o)
    (h : ReflTransGen p.ComputedFrom s v) : v.index < p.values.size := by
  rcases ReflTransGen.cases_tail h with rfl | ⟨u, -, hstep⟩
  · exact hp.lt_of_mem_operands (mem_indexOperands.1 hs).1
  · exact hp.lt_of_computedFrom hstep

theorem reflTransGen_leads_iff {s : ValueId} (hs : s.index < p.values.size) :
    ReflTransGen (Leads p.computedFrom) s v ↔ ReflTransGen p.ComputedFrom s v := by
  constructor
  · intro h
    have hboth : ReflTransGen p.ComputedFrom s v ∧ v.index < p.values.size := by
      induction h with
      | refl => exact ⟨.refl, hs⟩
      | tail _ hstep ih =>
        have hfrom := (hp.leads_computedFrom ih.2).1 hstep
        exact ⟨ih.1.tail hfrom, hp.lt_of_computedFrom hfrom⟩
    exact hboth.1
  · intro h
    have hboth : ReflTransGen (Leads p.computedFrom) s v ∧ v.index < p.values.size := by
      induction h with
      | refl => exact ⟨.refl, hs⟩
      | tail _ hfrom ih =>
        exact ⟨ih.1.tail ((hp.leads_computedFrom ih.2).2 hfrom), hp.lt_of_computedFrom hfrom⟩
    exact hboth.1

end WellFormed

end Program

/-! ## The worklist -/

/-- What is still to be looked at, the next value last; what has been looked at; and what has been
found. -/
structure Tracing where
  worklist : List ValueId
  seen : List ValueId
  trace : InductionTrace

namespace InductionTrace

def empty : InductionTrace := ⟨[], []⟩

def addVar (t : InductionTrace) (v : ValueId) : InductionTrace :=
  if v ∈ t.inductionVars then t else { t with inductionVars := t.inductionVars ++ [v] }

def addOp (t : InductionTrace) (o : OpId) : InductionTrace :=
  if o ∈ t.visitedOps then t else { t with visitedOps := t.visitedOps ++ [o] }

/-- Notes an induction variable, and the operation of which the value is a result. -/
def note (p : Program) (t : InductionTrace) (v : ValueId) : InductionTrace :=
  match p.definingOp? v with
  | some z => t.addOp z
  | none => if (p.inductionOwner? v).isSome then t.addVar v else t

end InductionTrace

namespace Tracing

/-- Takes the last value.  One that has been looked at is passed over; after as many as may be
looked at, the search ends; otherwise what the value is computed from is still to be looked at. -/
def turn (p : Program) (s : Tracing) : Option Tracing :=
  match s.worklist.getLast? with
  | none => none
  | some v =>
    if v ∈ s.seen then some { s with worklist := s.worklist.dropLast }
    else if inductionLimit ≤ s.seen.length then some { s with worklist := [] }
    else some ⟨s.worklist.dropLast ++ (p.computedFrom v).reverse, s.seen ++ [v], s.trace.note p v⟩

def Turns (p : Program) : Tracing → Tracing → Prop := ReflTransGen fun s s' => s.turn p = some s'

def start (p : Program) (o : OpId) : Tracing := ⟨p.indexOperands o, [], .empty⟩

section

variable {worklist seen : List ValueId} {t : InductionTrace}

theorem turn_of_seen (hv : v ∈ seen) :
    turn p ⟨worklist ++ [v], seen, t⟩ = some ⟨worklist, seen, t⟩ := by
  simp [turn, hv]

theorem turn_of_limit (hv : v ∉ seen) (h : inductionLimit ≤ seen.length) :
    turn p ⟨worklist ++ [v], seen, t⟩ = some ⟨[], seen, t⟩ := by
  simp [turn, hv, h]

theorem turn_of_new (hv : v ∉ seen) (h : seen.length < inductionLimit) :
    turn p ⟨worklist ++ [v], seen, t⟩ =
      some ⟨worklist ++ (p.computedFrom v).reverse, seen ++ [v], t.note p v⟩ := by
  simp [turn, hv, Nat.not_le.2 h]

/-- From any worklist the search ends, and it notes what a visit meets. -/
theorem turns_visit {limit : Nat} {set : IndexSet} (hset : ∀ v, set.contains v = true ↔ v ∈ seen)
    (hlimit : seen.length + limit = inductionLimit) :
    ∃ seen', Turns p ⟨worklist, seen, t⟩
      ⟨[], seen', (visit p.computedFrom limit worklist.reverse set).foldl (.note p) t⟩ := by
  induction limit generalizing worklist seen set t with
  | zero =>
    induction worklist using List.reverseRecOn with
    | nil => exact ⟨seen, .refl⟩
    | append_singleton worklist v ih =>
      by_cases hv : v ∈ seen
      · obtain ⟨seen', hturns⟩ := ih
        exact ⟨seen', .head (turn_of_seen hv) hturns⟩
      · exact ⟨seen, .single (turn_of_limit hv (by omega))⟩
  | succ limit ih =>
    induction worklist using List.reverseRecOn with
    | nil => exact ⟨seen, .refl⟩
    | append_singleton worklist v ihworklist =>
      rw [List.reverse_concat]
      by_cases hv : v ∈ seen
      · obtain ⟨seen', hturns⟩ := ihworklist
        rw [visit_cons_of_contains ((hset v).2 hv)]
        exact ⟨seen', .head (turn_of_seen hv) hturns⟩
      · have hnew : set.contains v = false := Bool.eq_false_iff.2 fun h => hv ((hset v).1 h)
        have hset' : ∀ w, (set.insert v).contains w = true ↔ w ∈ seen ++ [v] := fun w => by
          rw [IndexSet.contains_insert, Bool.or_eq_true, hset, decide_eq_true_eq, List.mem_append,
            List.mem_singleton, eq_comm]
        obtain ⟨seen', hturns⟩ := @ih (worklist ++ (p.computedFrom v).reverse) (seen ++ [v])
          (t.note p v) _ hset' (by simp only [List.length_append, List.length_singleton]; omega)
        rw [List.reverse_append, List.reverse_reverse] at hturns
        rw [visit_cons_of_not_contains hnew, List.foldl_cons]
        exact ⟨seen', .head (turn_of_new hv (by omega)) hturns⟩

end

end Tracing

/-! ## The trace -/

theorem eraseDups_concat {α : Type} [DecidableEq α] (as : List α) (a : α) :
    (as ++ [a]).eraseDups = if a ∈ as then as.eraseDups else as.eraseDups ++ [a] := by
  rw [List.eraseDups_append, List.removeAll]
  by_cases ha : a ∈ as <;> simp [ha, List.eraseDups_cons]

theorem inductionOwner?_of_definingOp? (h : p.definingOp? v = some z) :
    p.inductionOwner? v = none := by
  rw [definingOp?] at h
  rw [inductionOwner?, argOwner?]
  cases horigin : (p.value v).origin with
  | result => rfl
  | arg => simp [horigin] at h

/-- What a walk over values without repetition notes. -/
theorem foldl_note {vs : List ValueId} (hvs : vs.Nodup) :
    vs.foldl (.note p) .empty = (⟨vs.filter fun v => (p.inductionOwner? v).isSome,
      (vs.filterMap p.definingOp?).eraseDups⟩ : InductionTrace) := by
  induction vs using List.reverseRecOn with
  | nil => simp [InductionTrace.empty]
  | append_singleton vs v ih =>
    obtain ⟨hvs, -, hv⟩ := List.nodup_append.1 hvs
    rw [List.foldl_concat, ih hvs, InductionTrace.note, List.filter_append, List.filterMap_append]
    cases hdef : p.definingOp? v with
    | some z =>
      have hops : [v].filterMap p.definingOp? = [z] := by simp [hdef]
      have hvars : [v].filter (fun v => (p.inductionOwner? v).isSome) = [] := by
        simp [inductionOwner?_of_definingOp? hdef]
      simp only [hops, hvars, eraseDups_concat, InductionTrace.addOp, List.mem_eraseDups,
        List.append_nil]
      split <;> rfl
    | none =>
      have hout : v ∉ vs := fun hmem => hv v hmem v List.mem_cons_self rfl
      by_cases howner : (p.inductionOwner? v).isSome = true <;>
        simp [hdef, howner, InductionTrace.addVar, hout]

theorem Tracing.turns_start (p : Program) (o : OpId) :
    ∃ seen, Turns p (start p o) ⟨[], seen, p.inductionTrace o⟩ := by
  obtain ⟨seen, hturns⟩ := @turns_visit p (p.indexOperands o) [] .empty inductionLimit .empty
    (by simp) (by simp)
  rw [foldl_note (nodup_visit _ _ _).1] at hturns
  exact ⟨seen, hturns⟩

/-- A search meets all there is if it may look at as many values. -/
theorem mem_visit_of_small {α : Type} [Indexed α] [DecidableEq α] {next : α → List α} {limit : Nat}
    {stack us : List α} {v : α} (hlen : us.length ≤ limit)
    (hus : ∀ s ∈ stack, ∀ v, ReflTransGen (Leads next) s v → v ∈ us) :
    v ∈ visit next limit stack .empty ↔ ∃ s ∈ stack, ReflTransGen (Leads next) s v := by
  classical
  let met := us.filter fun v => ∃ s ∈ stack, ReflTransGen (Leads next) s v
  have hmet : ∀ v, v ∈ met ↔ ∃ s ∈ stack, ReflTransGen (Leads next) s v := by
    intro v
    rw [List.mem_filter, decide_eq_true_eq, and_iff_right_iff_imp]
    rintro ⟨s, hs, hsv⟩
    exact hus s hs v hsv
  have hclosed : ∀ a ∈ met, ∀ b ∈ next a, b ∈ met := by
    intro a ha b hb
    obtain ⟨s, hs, hsa⟩ := (hmet a).1 ha
    exact (hmet b).2 ⟨s, hs, hsa.tail hb⟩
  have hstack : ∀ a ∈ stack, a ∈ met := fun a ha => (hmet a).2 ⟨a, ha, .refl⟩
  exact mem_visit_iff hclosed hstack (Nat.le_trans (List.length_filter_le _ _) hlen)

theorem Program.WellFormed.mem_visit_computedFrom (hp : p.WellFormed) {chain : List ValueId}
    (hlen : chain.length ≤ inductionLimit)
    (hchain : ∀ s ∈ p.indexOperands o, ∀ v, ReflTransGen p.ComputedFrom s v → v ∈ chain) :
    v ∈ visit p.computedFrom inductionLimit (p.indexOperands o).reverse .empty ↔
      ∃ s ∈ p.indexOperands o, ReflTransGen p.ComputedFrom s v := by
  have hlt : ∀ s ∈ p.indexOperands o, s.index < p.values.size := fun s hs =>
    hp.lt_of_mem_operands (mem_indexOperands.1 hs).1
  rw [mem_visit_of_small hlen fun s hs v hsv => by
    rw [List.mem_reverse] at hs
    exact hchain s hs v ((hp.reflTransGen_leads_iff (hlt s hs)).1 hsv)]
  constructor
  · rintro ⟨s, hs, hsv⟩
    rw [List.mem_reverse] at hs
    exact ⟨s, hs, (hp.reflTransGen_leads_iff (hlt s hs)).1 hsv⟩
  · rintro ⟨s, hs, hsv⟩
    exact ⟨s, List.mem_reverse.2 hs, (hp.reflTransGen_leads_iff (hlt s hs)).2 hsv⟩

/-- The search ends on every program.  Where the index operands of an operation are computed from
few enough values, it reports the induction variables among these, and the operations that define
them, each once. -/
theorem inductionTrace_exact (p : Program) (o : OpId) :
    (∃ seen, Tracing.Turns p (.start p o) ⟨[], seen, p.inductionTrace o⟩) ∧
    ∀ (source : String) (chain : List ValueId), readProgram source = .ok p →
      chain.length ≤ inductionLimit →
      (∀ s ∈ p.indexOperands o, ∀ v, ReflTransGen p.ComputedFrom s v → v ∈ chain) →
      let trace := p.inductionTrace o
      trace.inductionVars.Nodup ∧ trace.visitedOps.Nodup ∧
      (∀ v, v ∈ trace.inductionVars ↔ (∃ z, (p.kind z).isLoop = true ∧ p.inductionVar? z = some v) ∧
        ∃ s ∈ p.indexOperands o, ReflTransGen p.ComputedFrom s v) ∧
      ∀ z, z ∈ trace.visitedOps ↔ ∃ v ∈ (p.op z).results,
        ∃ s ∈ p.indexOperands o, ReflTransGen p.ComputedFrom s v := by
  refine ⟨Tracing.turns_start p o, fun source chain hsource hlen hchain => ?_⟩
  have hp := wellFormed_of_readProgram hsource
  have hmem : ∀ v, v ∈ visit p.computedFrom inductionLimit (p.indexOperands o).reverse .empty ↔
      ∃ s ∈ p.indexOperands o, ReflTransGen p.ComputedFrom s v := fun v =>
    hp.mem_visit_computedFrom hlen hchain
  have hlt : ∀ v, (∃ s ∈ p.indexOperands o, ReflTransGen p.ComputedFrom s v) →
      v.index < p.values.size := fun v ⟨s, hs, hsv⟩ => hp.lt_of_reflTransGen hs hsv
  refine ⟨(nodup_visit _ _ _).1.filter _, nodup_eraseDups _, fun v => ?_, fun z => ?_⟩
  · show v ∈ List.filter _
      (visit p.computedFrom inductionLimit (p.indexOperands o).reverse .empty) ↔ _
    rw [List.mem_filter, hmem, and_comm]
    exact and_congr_left fun hv => hp.isSome_inductionOwner? (hlt v hv)
  · show z ∈ List.eraseDups (List.filterMap _
      (visit p.computedFrom inductionLimit (p.indexOperands o).reverse .empty)) ↔ _
    rw [List.mem_eraseDups, List.mem_filterMap]
    constructor
    · rintro ⟨v, hv, hz⟩
      rw [hmem] at hv
      exact ⟨v, (hp.linked.definingOp?_eq_some_iff (hlt v hv)).1 hz, hv⟩
    · rintro ⟨v, hz, hv⟩
      exact ⟨v, (hmem v).2 hv, (hp.linked.definingOp?_eq_some_iff (hlt v hv)).2 hz⟩

/-- `%w` takes `%v`, which a compute yields, from `%j` of the inner loop and from the parameter
`%k`, which receives `%i` of the outer loop. -/
def offsetInCall : String := "func @f(%m: memref<1, L1>, %n: index) \x7b
  for %i = %n to %n step %n \x7b
    %h = launch args(%x = %m, %k = %i) \x7b
      parallel %j = %k to %k step %k \x7b
        %t, %v = compute \x7b
          %s = addi %j, %k
          yield %s
        \x7d
        %w = transfer %x[%v] <- %x
        yield
      \x7d
      end
    \x7d
    yield
  \x7d
\x7d
"

theorem inductionTrace_exact_offsetInCall : ∃ p, readProgram offsetInCall = .ok p ∧
    p.indexOperands ⟨3⟩ = [⟨8⟩] ∧ p.inductionTrace ⟨3⟩ = ⟨[⟨2⟩, ⟨5⟩], [⟨2⟩, ⟨0⟩]⟩ ∧
    ReflTransGen p.ComputedFrom ⟨8⟩ ⟨2⟩ ∧ ReflTransGen p.ComputedFrom ⟨8⟩ ⟨5⟩ := by
  obtain ⟨p, hsource, htest⟩ := accepts_iff.1 (show accepts offsetInCall (fun p =>
    p.indexOperands ⟨3⟩ = [⟨8⟩] ∧ p.inductionTrace ⟨3⟩ = ⟨[⟨2⟩, ⟨5⟩], [⟨2⟩, ⟨0⟩]⟩ ∧
      p.valueIds.length ≤ inductionLimit) = true by decide +kernel)
  obtain ⟨hoperands, htrace, hlen⟩ := of_decide_eq_true htest
  have hp := wellFormed_of_readProgram hsource
  obtain ⟨-, -, hvars, -⟩ := (inductionTrace_exact p ⟨3⟩).2 offsetInCall p.valueIds hsource hlen
    fun s hs v hsv => mem_valueIds.2 (hp.lt_of_reflTransGen hs hsv)
  have hfrom : ∀ v ∈ [(⟨2⟩ : ValueId), ⟨5⟩], ReflTransGen p.ComputedFrom ⟨8⟩ v := by
    intro v hv
    obtain ⟨-, s, hs, hsv⟩ := (hvars v).1 (by rw [htrace]; exact hv)
    rw [hoperands, List.mem_singleton] at hs
    rwa [hs] at hsv
  exact ⟨p, hsource, hoperands, htrace, hfrom _ (by simp), hfrom _ (by simp)⟩

/-! ## Branches -/

/-- Operations whose results are computed from all their operands. -/
def OpKind.isScalar : OpKind → Bool
  | const _ | muli | addi | apply | branch => true
  | _ => false

/-- As `ComputedFrom`, where a result of a conditional depends on what its branches yield there. -/
inductive Program.DependsOn (p : Program) (v w : ValueId) : Prop
  | operand {z : OpId} (hkind : (p.kind z).isScalar = true) (hv : v ∈ (p.op z).results)
      (hw : w ∈ (p.op z).operands)
  | yielded {z y : OpId} {b : BlockId} {i : Nat} (hkind : p.kind z = .compute)
      (hv : (p.op z).results[i + 1]? = some v) (hb : p.body? z = some b)
      (hy : p.terminator? b = some y) (hw : (p.op y).operands[i]? = some w)
  | handed (h : p.HandsOn w v)
  | branch {z y : OpId} {b : BlockId} {i : Nat} (hkind : p.kind z = .branch)
      (hv : (p.op z).results[i]? = some v) (hb : b ∈ (p.op z).regions)
      (hy : p.terminator? b = some y) (hw : (p.op y).operands[i]? = some w)

theorem Program.WellFormed.lt_of_dependsOn (hp : p.WellFormed) (h : p.DependsOn v w) :
    w.index < p.values.size := by
  cases h with
  | operand _ _ hw => exact hp.lt_of_mem_operands hw
  | yielded _ _ _ _ hw => exact hp.lt_of_mem_operands (List.mem_of_getElem? hw)
  | handed h => exact hp.lt_of_handsOn h
  | branch _ _ _ _ hw => exact hp.lt_of_mem_operands (List.mem_of_getElem? hw)

/-- Both branches yield the induction variable, on which the condition does not depend. -/
def yieldedOffset : String := "func @f(%m: memref<1, L1>, %c: index) \x7b
  for %i = %c to %c step %c \x7b
    %r = if %c \x7b
      yield %i
    \x7d else \x7b
      yield %i
    \x7d
    %w = transfer %m[%r] <- %m
    yield
  \x7d
\x7d
"

/-- An induction variable that a branch yields is missed. -/
theorem not_inductionTrace_complete : ¬ ∀ (source : String) (p : Program) (o : OpId)
    (chain : List ValueId), readProgram source = .ok p → chain.length ≤ inductionLimit →
    (∀ s ∈ p.indexOperands o, ∀ v, ReflTransGen p.DependsOn s v → v ∈ chain) →
    ∀ v z, (p.kind z).isLoop = true → p.inductionVar? z = some v →
      (∃ s ∈ p.indexOperands o, ReflTransGen p.DependsOn s v) →
      v ∈ (p.inductionTrace o).inductionVars := by
  intro hall
  obtain ⟨p, hsource, htest⟩ := accepts_iff.1 (show accepts yieldedOffset (fun p =>
    (p.indexOperands ⟨3⟩ = [⟨3⟩] ∧ (p.inductionTrace ⟨3⟩).inductionVars = [] ∧
      p.valueIds.length ≤ inductionLimit) ∧
    ((p.kind ⟨5⟩).isLoop = true ∧ p.inductionVar? ⟨5⟩ = some ⟨2⟩) ∧
    p.kind ⟨2⟩ = .branch ∧ (p.op ⟨2⟩).results[0]? = some ⟨3⟩ ∧ ⟨2⟩ ∈ (p.op ⟨2⟩).regions ∧
      p.terminator? ⟨2⟩ = some ⟨0⟩ ∧ (p.op ⟨0⟩).operands[0]? = some ⟨2⟩) = true by decide +kernel)
  obtain ⟨⟨hoperands, htrace, hlen⟩, ⟨hloop, hvar⟩, hkind, hv, hb, hy, hw⟩ :=
    of_decide_eq_true htest
  have hp := wellFormed_of_readProgram hsource
  have hmissed := hall yieldedOffset p ⟨3⟩ p.valueIds hsource hlen (fun s hs v hsv => by
    rw [mem_valueIds]
    rcases ReflTransGen.cases_tail hsv with rfl | ⟨u, -, hstep⟩
    · exact hp.lt_of_mem_operands (mem_indexOperands.1 hs).1
    · exact hp.lt_of_dependsOn hstep) ⟨2⟩ ⟨5⟩ hloop hvar
    ⟨⟨3⟩, by simp [hoperands], .single (.branch hkind hv hb hy hw)⟩
  rw [htrace] at hmissed
  exact List.not_mem_nil hmissed

end AsyncOrder
