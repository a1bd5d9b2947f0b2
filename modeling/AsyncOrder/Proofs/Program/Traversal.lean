import AsyncOrder.Proofs.Graph.Stack
import AsyncOrder.Proofs.Rewriting.Edits

/-!
# Walks by a stack, and uses by a map

Where no operation lies in itself, a walk that keeps a stack ends, and it meets what the recursion
meets, in the order of documents:

    Turns q.isLive q.pushNested (start (q.block b).ops) ⟨[], q.walkBlock b⟩
    Preorder q.isLive q.nested (q.block b).ops out ↔ out = q.walkBlock b

A map filled in the course of one walk has, for every value, what a walk for that value alone
finds: operands before dependencies, as often as they name the value.

    q.useMap.get v = q.uses v = q.walk.flatMap fun o => q.usesIn o v               (walk_exact)
-/

namespace AsyncOrder

open Program Relation Traversal

variable {p q : Program} {o z : OpId} {b : BlockId} {v w : ValueId} {m : UseMap}

namespace Program

/-- What walks and use maps need of the tables: ids that are listed or mentioned name something,
and no operation lies in itself. -/
structure Grounded (q : Program) : Prop where
  listed : ∀ b, ∀ o ∈ (q.block b).ops, o.index < q.ops.size
  mentioned : ∀ o, ∀ v ∈ q.used o, v.index < q.values.size
  apart : ∀ o, ¬ TransGen (Leads q.nested) o o

/-- A program that is thinned out is grounded, as long as what its operations use is there. -/
theorem Thins.grounded (hp : p.WellFormed) (h : p.Thins q)
    (hused : ∀ i < q.ops.size, ∀ v ∈ q.used ⟨i⟩, v.index < q.values.size) : q.Grounded := by
  have hlt : ∀ z o, TransGen (Leads q.nested) z o → o.index < z.index := by
    intro z o hzo
    induction hzo with
    | single hy => exact hp.linked.nested_lt (h.nested_sublist.subset hy)
    | tail _ hy ih => exact Nat.lt_trans (hp.linked.nested_lt (h.nested_sublist.subset hy)) ih
  constructor
  case listed =>
    intro b o ho
    rw [h.size_ops]
    exact hp.linked.size_of_mem_ops ((h.ops b).subset ho)
  case mentioned =>
    intro o v hv
    by_cases ho : o.index < q.ops.size
    · exact hused o.index ho v hv
    · rw [used, op_of_size_le (Nat.le_of_not_lt ho)] at hv
      exact absurd hv List.not_mem_nil
  case apart => exact fun o ho => Nat.lt_irrefl _ (hlt o o ho)

/-! ## Walks -/

/-- A walk is deep enough if the operations around it and the levels that it may go down are more
than there are operations. -/
theorem Grounded.preorder_walkFrom (h : q.Grounded) (depth : Nat) (around ops : List OpId)
    (hnodup : around.Nodup) (hops : ∀ o ∈ ops, o.index < q.ops.size)
    (haround : ∀ z ∈ around, z.index < q.ops.size ∧ ∀ o ∈ ops, TransGen (Leads q.nested) z o)
    (hdepth : q.ops.size < around.length + depth) :
    Preorder q.isLive q.nested ops (q.walkFrom q.isLive (fun _ => true) depth ops) := by
  induction depth generalizing around ops with
  | zero =>
    -- no more operations can be around than there are
    have hsub : around ⊆ (List.range q.ops.size).map OpId.mk := fun z hz =>
      List.mem_map.2 ⟨z.index, List.mem_range.2 (haround z hz).1, rfl⟩
    have hlen := (List.subperm_of_subset hnodup hsub).length_le
    simp only [List.length_map, List.length_range] at hlen
    omega
  | succ depth ih =>
    induction ops with
    | nil => exact .nil
    | cons o ops ihops =>
      have hrest := ihops (fun x hx => hops x (List.mem_cons_of_mem o hx)) fun z hz =>
        ⟨(haround z hz).1, fun x hx => (haround z hz).2 x (List.mem_cons_of_mem o hx)⟩
      rw [walkFrom] at hrest ⊢
      rw [List.flatMap_cons]
      cases ho : q.isLive o with
      | false =>
        rw [if_neg Bool.false_ne_true, List.nil_append]
        exact Preorder.drop ho hrest
      | true =>
        have hout : o ∉ around := fun hmem =>
          h.apart o ((haround o hmem).2 o List.mem_cons_self)
        have hinner := ih (o :: around) (q.nested o) (List.nodup_cons.2 ⟨hout, hnodup⟩)
          (fun y hy => by
            obtain ⟨b, -, hb⟩ := List.mem_flatMap.1 hy
            exact h.listed b y hb)
          (fun z hz => by
            rcases List.mem_cons.1 hz with rfl | hz
            · exact ⟨hops z List.mem_cons_self, fun y hy => .single hy⟩
            · exact ⟨(haround z hz).1, fun y hy =>
                ((haround z hz).2 o List.mem_cons_self).tail hy⟩)
          (by simp only [List.length_cons]; omega)
        exact Preorder.keep ho hinner hrest

theorem Grounded.preorder_walkBlock (h : q.Grounded) (b : BlockId) :
    Preorder q.isLive q.nested (q.block b).ops (q.walkBlock b) :=
  h.preorder_walkFrom q.walkDepth [] _ List.nodup_nil (h.listed b) (by simp) (by simp [walkDepth])

/-- What lies in an operation is pushed backwards, the last region first. -/
def pushNested (q : Program) (stack : List OpId) (o : OpId) : List OpId :=
  (q.op o).regions.reverse.foldl (fun stack b => stack ++ (q.block b).ops.reverse) stack

theorem pushNested_eq (stack : List OpId) (o : OpId) :
    q.pushNested stack o = stack ++ (q.nested o).reverse := by
  unfold pushNested nested
  induction (q.op o).regions with
  | nil => simp
  | cons b regions ih => simp [List.foldl_append, ih]

/-! ## Uses -/

/-- The uses of `v` by one operation. -/
def usesIn (q : Program) (o : OpId) (v : ValueId) : List Use :=
  (((List.range (q.op o).operands.length).filter fun i => (q.op o).operands[i]? = some v).map
      fun i => ⟨o, .operand i⟩) ++
    ((List.range (q.op o).deps.length).filter fun i => (q.op o).deps[i]? = some v).map
      fun i => ⟨o, .dep i⟩

/-- The places of `v` in a list, with what is made of them. -/
theorem filterMap_mapIdx (vs : List ValueId) (slot : Nat → Slot) (o : OpId) (v : ValueId) :
    (vs.mapIdx fun i w => (w, slot i)).filterMap
        (fun m => if m.1 = v then some (⟨o, m.2⟩ : Use) else none) =
      ((List.range vs.length).filter fun i => vs[i]? = some v).map fun i => ⟨o, slot i⟩ := by
  induction vs using List.reverseRecOn with
  | nil => rfl
  | append_singleton vs w ih =>
    have hbefore : ∀ i ∈ List.range vs.length,
        decide ((vs ++ [w])[i]? = some v) = decide (vs[i]? = some v) := by
      intro i hi
      rw [List.getElem?_append_left (List.mem_range.1 hi)]
    rw [List.mapIdx_append, List.filterMap_append, ih, List.length_append, List.length_singleton,
      List.range_succ, List.filter_append, List.map_append, List.filter_congr hbefore]
    by_cases hw : w = v
    · simp [hw]
    · simp [hw]

theorem uses_eq (v : ValueId) : q.uses v = q.walk.flatMap fun o => q.usesIn o v := by
  rw [uses, allUses, List.filterMap_flatMap]
  refine List.flatMap_congr fun o _ => ?_
  rw [List.filterMap_map, Operation.mentions, List.filterMap_append, usesIn]
  exact congrArg₂ (· ++ ·) (filterMap_mapIdx _ _ o v) (filterMap_mapIdx _ _ o v)

end Program

theorem UseMap.get_add (hw : w.index < m.lists.size) (u : Use) (v : ValueId) :
    (m.add w u).get v = if w = v then m.get v ++ [u] else m.get v := by
  rw [get, add, Array.getElem?_modify]
  by_cases hv : w = v
  · subst hv
    rw [if_pos rfl, if_pos rfl, get, Array.getElem?_eq_getElem hw]
    rfl
  · rw [if_neg hv, if_neg fun h => hv (congrArg ValueId.mk h), get]

/-- Uses are added behind those of the same value, in the order in which they come. -/
theorem UseMap.get_foldl_add (us : List (ValueId × Use)) (m : UseMap)
    (hus : ∀ u ∈ us, u.1.index < m.lists.size) (v : ValueId) :
    (us.foldl (fun m u => m.add u.1 u.2) m).get v =
      m.get v ++ us.filterMap fun u => if u.1 = v then some u.2 else none := by
  induction us generalizing m with
  | nil => simp
  | cons u us ih =>
    have hsize : (m.add u.1 u.2).lists.size = m.lists.size := Array.size_modify
    rw [List.foldl_cons, ih _ (fun x hx => hsize ▸ hus x (List.mem_cons_of_mem u hx)),
      get_add (hus u List.mem_cons_self)]
    by_cases hu : u.1 = v
    · simp [hu]
    · simp [hu]

theorem Program.Grounded.get_useMap (h : q.Grounded) (v : ValueId) :
    q.useMap.get v = q.uses v := by
  have hnone : (⟨Array.replicate q.values.size []⟩ : UseMap).get v = [] := by
    rw [UseMap.get, Array.getElem?_replicate]
    split <;> rfl
  rw [useMap, UseMap.get_foldl_add, hnone, List.nil_append, uses]
  intro u hu
  obtain ⟨-, hmention⟩ := mem_allUses.1 (show (u.1, u.2) ∈ q.allUses from hu)
  rw [Array.size_replicate]
  exact h.mentioned _ _ (Operation.mem_of_mention hmention)

/-! ## Both -/

/-- Where no operation lies in itself, the stack comes to its end with the walk that the recursion
makes, and one walk fills a map with what a walk for each value finds. -/
theorem Program.walk_exact (h : q.Grounded) :
    (∀ b, Turns q.isLive q.pushNested (start (q.block b).ops) ⟨[], q.walkBlock b⟩ ∧
      turn q.isLive q.pushNested ⟨[], q.walkBlock b⟩ = none ∧
      ∀ out, Preorder q.isLive q.nested (q.block b).ops out ↔ out = q.walkBlock b) ∧
    ∀ v, q.useMap.get v = q.uses v ∧ (q.uses v = q.walk.flatMap fun o => q.usesIn o v) ∧
      (q.isUsed v = true ↔ q.useMap.get v ≠ []) := by
  refine ⟨fun b => ?_, fun v => ?_⟩
  · have hwalk := h.preorder_walkBlock b
    refine ⟨hwalk.turns_start pushNested_eq, rfl, fun out => ⟨hwalk.unique, ?_⟩⟩
    rintro rfl
    exact hwalk
  · refine ⟨h.get_useMap v, uses_eq v, ?_⟩
    rw [h.get_useMap v, isUsed]
    cases q.uses v <;> simp

/-- `%a` is a dependency twice over, an initial value and a value that is yielded. -/
def bothBranches : String := "func @f(%m: memref<1, L1>, %n: index) \x7b
  %a = join
  %b = join [%a]
  %r = if %n \x7b
    %x = join [%a, %b, %a]
    yield %x
  \x7d else \x7b
    %t = transfer [%a] %m <- %m
    yield %t
  \x7d
  for %i = %n to %n step %n iter(%k = %a) \x7b
    %y = join [%k, %a]
    yield %a
  \x7d
  %z = join [%r, %a]
\x7d
"

/-- Two joins are erased, one of them in the loop. -/
theorem Program.walk_exact_bothBranches : ∃ p q, readProgram bothBranches = .ok p ∧
    q = p.editAll [.eraseOp ⟨1⟩, .eraseOp ⟨7⟩] ∧ q.Grounded ∧
    Turns q.isLive q.pushNested (start (q.block ⟨0⟩).ops)
      ⟨[], [⟨0⟩, ⟨6⟩, ⟨2⟩, ⟨3⟩, ⟨4⟩, ⟨5⟩, ⟨9⟩, ⟨8⟩, ⟨10⟩]⟩ ∧
    q.uses ⟨2⟩ = [⟨⟨2⟩, .dep 0⟩, ⟨⟨2⟩, .dep 2⟩, ⟨⟨4⟩, .dep 0⟩, ⟨⟨9⟩, .operand 3⟩,
      ⟨⟨8⟩, .operand 0⟩, ⟨⟨10⟩, .dep 1⟩] ∧ q.useMap.get ⟨2⟩ = q.uses ⟨2⟩ := by
  obtain ⟨p, hsource, htest⟩ := accepts_iff.1 (show accepts bothBranches (fun p =>
    let q := p.editAll [.eraseOp ⟨1⟩, .eraseOp ⟨7⟩]
    (∀ i < q.ops.size, ∀ v ∈ q.used ⟨i⟩, v.index < q.values.size) ∧
      q.walkBlock ⟨0⟩ = [⟨0⟩, ⟨6⟩, ⟨2⟩, ⟨3⟩, ⟨4⟩, ⟨5⟩, ⟨9⟩, ⟨8⟩, ⟨10⟩] ∧
      q.uses ⟨2⟩ = [⟨⟨2⟩, .dep 0⟩, ⟨⟨2⟩, .dep 2⟩, ⟨⟨4⟩, .dep 0⟩, ⟨⟨9⟩, .operand 3⟩,
        ⟨⟨8⟩, .operand 0⟩, ⟨⟨10⟩, .dep 1⟩]) = true by decide +kernel)
  obtain ⟨hused, hwalk, huses⟩ := of_decide_eq_true htest
  have hp := wellFormed_of_readProgram hsource
  have hfollows := hp.linked.follows.changes hp.linked
    (changes_editAll p [.eraseOp ⟨1⟩, .eraseOp ⟨7⟩])
  have hgrounded := hfollows.thins.grounded hp hused
  obtain ⟨hwalks, hmap⟩ := walk_exact hgrounded
  exact ⟨p, _, hsource, rfl, hgrounded, hwalk ▸ (hwalks ⟨0⟩).1, huses, (hmap ⟨2⟩).1⟩

end AsyncOrder
