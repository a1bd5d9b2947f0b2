import AsyncOrder.Proofs.Graph.Cycle

/-!
# Sorting by two searches

A topological sort that keeps a stack of its own and searches twice.  The first search goes from
every vertex in turn, notes in which order vertices are finished and reports one that is its own
successor.  The second goes through them, last finished first, and searches backwards from each;
what it has discovered it does not enter again, and what it finds second from one vertex is
reported.  Both visit a neighbour earlier, the earlier its edge was added.

    g.Sorts r ↔ r is the vertex that g.cycleVertex? reports, or else g.order       (sorts_iff)
-/

namespace AsyncOrder

/-- Sets of numbers with the same members are the same. -/
theorem IndexSet.ext_contains {s s' : IndexSet} (h : ∀ n : Nat, s.contains n = s'.contains n) :
    s = s' := by
  cases s
  cases s'
  exact congrArg IndexSet.mk (Nat.eq_of_testBit_eq h)

namespace Digraph

/-! ## The two searches -/

/-- Puts those of the vertices that are not discovered on the stack, one after the other. -/
def push (discovered : IndexSet) (vs stack : List Nat) : List Nat :=
  vs.foldl (fun stack v => if discovered.contains v then stack else v :: stack) stack

/-- With `roots` to come, `stack`, the vertices `discovered` and those that are `done`, the first
search comes to a vertex that it reports, or to the vertices in the order of finishing.  A vertex
stays on the stack until all that was put above it is gone. -/
inductive Searches (g : Digraph) : (roots stack : List Nat) → (discovered : IndexSet) →
    (done : List Nat) → Except Nat (List Nat) → Prop
  | ended {discovered done} : Searches g [] [] discovered done (.ok done)
  | known {v roots discovered done r} : discovered.contains v = true →
      Searches g roots [] discovered done r → Searches g (v :: roots) [] discovered done r
  | root {v roots discovered done r} : discovered.contains v = false →
      Searches g roots [v] discovered done r → Searches g (v :: roots) [] discovered done r
  | loop {roots v stack discovered done} : discovered.contains v = false → g.Edge v v →
      Searches g roots (v :: stack) discovered done (.error v)
  | discover {roots v stack discovered done r} : discovered.contains v = false → ¬ g.Edge v v →
      Searches g roots (push (discovered.insert v) (g.successors v).reverse (v :: stack))
        (discovered.insert v) done r →
      Searches g roots (v :: stack) discovered done r
  | finish {roots v stack discovered done r} : discovered.contains v = true → v ∉ done →
      Searches g roots stack discovered (done ++ [v]) r →
      Searches g roots (v :: stack) discovered done r
  | skip {roots v stack discovered done r} : discovered.contains v = true → v ∈ done →
      Searches g roots stack discovered done r → Searches g roots (v :: stack) discovered done r

/-- Takes vertices from the stack up to the first that is not discovered, discovers it and puts
its predecessors on the stack. -/
def findNext (g : Digraph) : (stack : List Nat) → (discovered : IndexSet) →
    Option (Nat × List Nat × IndexSet)
  | [], _ => none
  | v :: stack, discovered =>
    if discovered.contains v then g.findNext stack discovered
    else some (v, push (discovered.insert v) (g.predecessors v).reverse stack, discovered.insert v)

/-- The vertex found second from the first vertex from which two are found. -/
def secondFound? (g : Digraph) : (discovered : IndexSet) → List Nat → Option Nat
  | _, [] => none
  | discovered, v :: rest =>
    match g.findNext [v] discovered with
    | none => g.secondFound? discovered rest
    | some (_, stack, discovered) =>
      match g.findNext stack discovered with
      | none => g.secondFound? discovered rest
      | some (u, _, _) => some u

/-- What the sort comes to: a vertex that is reported, or the order. -/
def Sorts (g : Digraph) (r : Except Nat (List Nat)) : Prop :=
  ∃ first, g.Searches (List.range g.size) [] .empty [] first ∧
    r = first.bind fun done =>
      match g.secondFound? .empty done.reverse with
      | some v => .error v
      | none => .ok done.reverse

variable {g : Digraph} {roots stack : List Nat} {discovered : IndexSet}
  {done : List Nat} {r r' : Except Nat (List Nat)} {v : Nat}

/-- The vertices that are not discovered stand on the stack in the order of the edges. -/
theorem push_reverse (discovered : IndexSet) (vs stack : List Nat) :
    push discovered vs.reverse stack = unseen vs discovered ++ stack := by
  rw [push, List.foldl_reverse]
  induction vs with
  | nil => rfl
  | cons v vs ih =>
    rw [List.foldr_cons, ih, unseen, unseen, List.filter_cons]
    cases discovered.contains v <;> rfl

/-- A search comes to one result. -/
theorem Searches.unique (h : g.Searches roots stack discovered done r)
    (h' : g.Searches roots stack discovered done r') : r = r' := by
  induction h generalizing r' with
  | ended =>
    cases h'
    rfl
  | known hv _ ih =>
    cases h' with
    | known _ h' => exact ih h'
    | root hnot _ => simp [hv] at hnot
  | root hv _ ih =>
    cases h' with
    | known hknown _ => simp [hv] at hknown
    | root _ h' => exact ih h'
  | loop hv hself =>
    cases h' with
    | loop => rfl
    | discover _ hnot _ => exact absurd hself hnot
    | finish hknown _ _ => simp [hv] at hknown
    | skip hknown _ _ => simp [hv] at hknown
  | discover hv hnot _ ih =>
    cases h' with
    | loop _ hself => exact absurd hself hnot
    | discover _ _ h' => exact ih h'
    | finish hknown _ _ => simp [hv] at hknown
    | skip hknown _ _ => simp [hv] at hknown
  | finish hv hnew _ ih =>
    cases h' with
    | loop hnot _ => simp [hv] at hnot
    | discover hnot _ _ => simp [hv] at hnot
    | finish _ _ h' => exact ih h'
    | skip _ hold _ => exact absurd hold hnew
  | skip hv hold _ ih =>
    cases h' with
    | loop hnot _ => simp [hv] at hnot
    | discover hnot _ _ => simp [hv] at hnot
    | finish _ hnew _ => exact absurd hold hnew
    | skip _ _ h' => exact ih h'

/-! ## The first search -/

theorem unseen_push (v : Nat) (stack roots : List Nat) :
    unseen (push (discovered.insert v) (g.successors v).reverse (v :: stack) ++ roots)
        (discovered.insert v) =
      unseen (g.successors v ++ (stack ++ roots)) (discovered.insert v) := by
  have hv : unseen (v :: (stack ++ roots)) (discovered.insert v) =
      unseen (stack ++ roots) (discovered.insert v) := by
    rw [unseen, List.filter_cons_of_neg (by simp), unseen]
  rw [push_reverse, List.append_assoc, List.cons_append, unseen_append, unseen_append, hv,
    unseen_unseen _ fun _ h => h]

/-- The first vertex visited that is its own successor is reported. -/
theorem searches_error (hg : g.Bounded) (limit : Nat) :
    ∀ (roots stack : List Nat) (discovered : IndexSet) (done : List Nat),
      (∀ w ∈ stack ++ roots, w < g.size) →
      (visit g.table.next limit (stack ++ roots) discovered).find?
        (fun w => w ∈ g.table.next w) = some v →
      g.Searches roots stack discovered done (.error v) := by
  -- the visit loses a vertex of its limit only where the search discovers one; what the search
  -- takes off besides costs the visit nothing, so the stack and the roots shrink within
  induction limit with
  | zero => exact fun _ _ _ _ _ h => nomatch h
  | succ limit ih =>
    have htop : ∀ w roots stack discovered done, discovered.contains w = false →
        (∀ x ∈ w :: (stack ++ roots), x < g.size) →
        (visit g.table.next (limit + 1) (w :: (stack ++ roots)) discovered).find?
          (fun w => w ∈ g.table.next w) = some v →
        g.Searches roots (w :: stack) discovered done (.error v) := by
      intro w roots stack discovered done hw hlt h
      have hnext := next_table (hlt w List.mem_cons_self)
      rw [visit_cons_of_not_contains hw, hnext] at h
      by_cases hself : g.Edge w w
      · rw [List.find?_cons_of_pos (by rw [hnext]; simpa using hself)] at h
        obtain rfl := Option.some.inj h
        exact .loop hw hself
      · rw [List.find?_cons_of_neg (by rw [hnext]; simpa using hself)] at h
        rw [← visit_congr (unseen_push w stack roots)] at h
        refine .discover hw hself (ih roots _ _ _ (fun x hx => ?_) h)
        rw [push_reverse, List.append_assoc, List.mem_append] at hx
        rcases hx with hx | hx
        · exact (hg w x (mem_successors.1 (List.mem_of_mem_filter hx))).2
        · exact hlt x hx
    intro roots stack
    induction stack with
    | nil =>
      induction roots with
      | nil => exact fun _ _ _ h => nomatch h
      | cons w roots ihroots =>
        intro discovered done hlt h
        cases hw : discovered.contains w with
        | true =>
          rw [List.nil_append, visit_cons_of_contains hw] at h
          exact .known hw (ihroots _ _ (fun x hx => hlt x (List.mem_cons_of_mem w hx)) h)
        | false => exact .root hw (htop w roots [] discovered done hw hlt h)
    | cons w stack ihstack =>
      intro discovered done hlt h
      cases hw : discovered.contains w with
      | true =>
        rw [List.cons_append, visit_cons_of_contains hw] at h
        have hrest := fun done => ihstack discovered done
          (fun x hx => hlt x (List.mem_cons_of_mem w hx)) h
        by_cases hdone : w ∈ done
        · exact .skip hw hdone (hrest _)
        · exact .finish hw hdone (hrest _)
      | false => exact htop w roots stack discovered done hw hlt h

/-- A search with `pending` on top of its stack, where what is pending and discovered is done,
goes on below as soon as what `finished` lists is done. -/
def Finishes (g : Digraph) (limit : Nat) : Prop :=
  ∀ roots pending stack discovered done r, (∀ w ∈ pending, w < g.size) →
    (unseen (List.range g.size) discovered).length ≤ limit →
    (∀ w ∈ done, discovered.contains w = true) →
    (∀ w ∈ pending, discovered.contains w = true → w ∈ done) →
    g.Searches roots stack
      (discovered.insertAll (finished g.table.next limit pending discovered))
      (done ++ finished g.table.next limit pending discovered) r →
    g.Searches roots (pending ++ stack) discovered done r

theorem insertAll_append_cons (discovered : IndexSet) (vs ws : List Nat) (v : Nat) :
    discovered.insertAll (vs ++ v :: ws) = ((discovered.insert v).insertAll vs).insertAll ws := by
  refine IndexSet.ext_contains fun w => ?_
  simp only [IndexSet.contains_insertAll, IndexSet.contains_insert]
  grind

/-- A vertex that is not discovered is done after what is finished beyond it. -/
theorem Finishes.vertex {limit : Nat} (h : g.Finishes limit) (hg : g.Bounded)
    (hloop : ¬ g.Edge v v) (hv : v < g.size) (hnew : discovered.contains v = false)
    (hlimit : (unseen (List.range g.size) discovered).length ≤ limit + 1)
    (hdone : ∀ w ∈ done, discovered.contains w = true) {beyond : List Nat}
    (hbeyond : finished g.table.next limit (g.table.next v) (discovered.insert v) = beyond)
    (hrest : g.Searches roots stack ((discovered.insert v).insertAll beyond)
      (done ++ beyond ++ [v]) r) :
    g.Searches roots (v :: stack) discovered done r := by
  have hless := length_unseen_insert_lt (List.mem_range.2 hv) hnew
  have hpushed : finished g.table.next limit (unseen (g.successors v) (discovered.insert v))
      (discovered.insert v) = beyond := by
    rw [← hbeyond, next_table hv]
    exact finished_congr (unseen_unseen _ fun _ h => h)
  refine .discover hnew hloop ?_
  rw [push_reverse]
  refine h roots _ (v :: stack) _ done r (fun w hw => ?_) (by omega)
    (fun w hw => by simp [hdone w hw]) (fun w hw hknown => ?_) ?_
  · exact (hg v w (mem_successors.1 (List.mem_of_mem_filter hw))).2
  · have hnot := (List.mem_filter.1 hw).2
    simp [hknown] at hnot
  · rw [hpushed]
    refine .finish (by simp [IndexSet.contains_insertAll]) ?_ hrest
    rw [List.mem_append]
    rintro (hmem | hmem)
    · simp [hdone v hmem] at hnew
    · have hfresh := (nodup_finished limit (g.table.next v) (discovered.insert v)).2 v
        (hbeyond ▸ hmem)
      simp at hfresh

/-- Without loops the search finishes vertices as `finished` lists them. -/
theorem finishes (hg : g.Bounded) (hloop : ∀ v, ¬ g.Edge v v) (limit : Nat) :
    g.Finishes limit := by
  -- what is pending shrinks, unless a vertex is discovered: then its successors are pending under a
  -- smaller limit, and so is the rest of what was pending, once they are done
  induction limit using Nat.strongRecOn with
  | ind limit ih =>
    intro roots pending
    induction pending with
    | nil =>
      intro stack discovered done r _ _ _ _ hrest
      rwa [finished_nil, List.append_nil] at hrest
    | cons v pending ihpending =>
      intro stack discovered done r hlt hlimit hdone hpending hrest
      have hv := hlt v List.mem_cons_self
      cases hknown : discovered.contains v with
      | true =>
        rw [finished_cons_of_contains hknown] at hrest
        exact .skip hknown (hpending v List.mem_cons_self hknown)
          (ihpending stack discovered done r (fun w hw => hlt w (List.mem_cons_of_mem v hw))
            hlimit hdone (fun w hw => hpending w (List.mem_cons_of_mem v hw)) hrest)
      | false =>
        have hless := length_unseen_insert_lt (List.mem_range.2 hv) hknown
        obtain ⟨limit, rfl⟩ : ∃ k, limit = k + 1 := ⟨limit - 1, by omega⟩
        rw [finished_cons_of_not_contains hknown] at hrest
        generalize hbeyond : finished g.table.next limit (g.table.next v) (discovered.insert v) =
          beyond at hrest
        rw [insertAll_append_cons, List.append_cons, ← List.append_assoc,
          ← List.append_assoc] at hrest
        have hmono := length_unseen_le (List.range g.size) (discovered.insert v)
          ((discovered.insert v).insertAll beyond)
          (fun w hw => by simp [IndexSet.contains_insertAll, hw])
        refine (ih limit (Nat.lt_succ_self _)).vertex hg (hloop v) hv hknown hlimit hdone hbeyond ?_
        refine ih limit (Nat.lt_succ_self _) roots pending stack _ _ r
          (fun w hw => hlt w (List.mem_cons_of_mem v hw)) (by omega) (fun w hw => ?_)
          (fun w hw hin => ?_) hrest
        · rw [List.append_assoc, List.mem_append] at hw
          rw [contains_insert_insertAll]
          exact hw.symm.imp_right (hdone w)
        · rw [List.append_assoc, List.mem_append]
          exact (contains_insert_insertAll.1 hin).symm.imp_left
            (hpending w (List.mem_cons_of_mem v hw))

/-- From one root to the next everything that is discovered is done. -/
theorem searches_ok (hg : g.Bounded) (hloop : ∀ v, ¬ g.Edge v v) (limit : Nat) :
    ∀ (roots : List Nat) (discovered : IndexSet) (done : List Nat), (∀ w ∈ roots, w < g.size) →
      (unseen (List.range g.size) discovered).length ≤ limit →
      (∀ w, discovered.contains w = true ↔ w ∈ done) →
      g.Searches roots [] discovered done
        (.ok (done ++ finished g.table.next limit roots discovered)) := by
  induction limit using Nat.strongRecOn with
  | ind limit ih =>
    intro roots
    induction roots with
    | nil =>
      intro discovered done _ _ _
      rw [finished_nil, List.append_nil]
      exact .ended
    | cons v roots ihroots =>
      intro discovered done hlt hlimit hdone
      have hv := hlt v List.mem_cons_self
      have hroots : ∀ w ∈ roots, w < g.size := fun w hw => hlt w (List.mem_cons_of_mem v hw)
      cases hknown : discovered.contains v with
      | true =>
        rw [finished_cons_of_contains hknown]
        exact .known hknown (ihroots discovered done hroots hlimit hdone)
      | false =>
        have hless := length_unseen_insert_lt (List.mem_range.2 hv) hknown
        obtain ⟨limit, rfl⟩ : ∃ k, limit = k + 1 := ⟨limit - 1, by omega⟩
        rw [finished_cons_of_not_contains hknown]
        generalize hbeyond : finished g.table.next limit (g.table.next v) (discovered.insert v) =
          beyond
        rw [List.append_cons, ← List.append_assoc, ← List.append_assoc]
        have hmono := length_unseen_le (List.range g.size) (discovered.insert v)
          ((discovered.insert v).insertAll beyond)
          (fun w hw => by simp [IndexSet.contains_insertAll, hw])
        refine .root hknown ((finishes hg hloop limit).vertex hg (hloop v) hv hknown hlimit
          (fun w => (hdone w).2) hbeyond ?_)
        refine ih limit (Nat.lt_succ_self _) roots _ _ hroots (by omega) fun w => ?_
        rw [contains_insert_insertAll, hdone, or_comm, ← List.mem_append, List.append_assoc]

/-! ## The second search -/

theorem next_flip_table (hv : v < g.size) : g.flip.table.next v = g.predecessors v := by
  have hsame : g.flip.successors v = g.predecessors v := by
    rw [successors, predecessors, flip, List.filter_map, List.map_map]
    rfl
  exact (next_table (g := g.flip) hv).trans hsame

/-- A stack of vertices that are not discovered gives the first of them. -/
theorem findNext_unseen (vs : List Nat) :
    (g.findNext (unseen vs discovered) discovered).map (·.1) =
      vs.find? fun u => !discovered.contains u := by
  rw [← List.head?_filter, ← unseen]
  cases h : unseen vs discovered with
  | nil => rfl
  | cons u rest =>
    have hu : u ∈ unseen vs discovered := h ▸ List.mem_cons_self
    have hnew := (List.mem_filter.1 hu).2
    rw [findNext, if_neg (by simpa using hnew)]
    rfl

/-- The second search reports the first predecessor that comes later. -/
theorem secondFound?_eq_latePredecessor? (l : List Nat) :
    ∀ discovered : IndexSet, l.Nodup → (∀ w ∈ l, w < g.size ∧ discovered.contains w = false) →
      g.secondFound? discovered l = latePredecessor? g.flip.table discovered l := by
  induction l with
  | nil => exact fun _ _ _ => rfl
  | cons v l ih =>
    intro discovered hnd hl
    obtain ⟨hv, hnew⟩ := hl v List.mem_cons_self
    rw [List.nodup_cons] at hnd
    have hrest := ih (discovered.insert v) hnd.2 fun w hw => by
      refine ⟨(hl w (List.mem_cons_of_mem v hw)).1, ?_⟩
      rw [IndexSet.contains_insert, (hl w (List.mem_cons_of_mem v hw)).2]
      exact decide_eq_false fun heq => hnd.1 (heq ▸ hw)
    have hfirst : g.findNext [v] discovered =
        some (v, unseen (g.predecessors v) (discovered.insert v), discovered.insert v) := by
      rw [findNext, if_neg (by simp [hnew]), push_reverse, List.append_nil]
    have hsecond : (g.findNext (unseen (g.predecessors v) (discovered.insert v))
        (discovered.insert v)).map (·.1) =
          (g.predecessors v).find? fun u => !(discovered.insert v).contains u :=
      findNext_unseen (g.predecessors v)
    simp only [secondFound?, hfirst, latePredecessor?, next_flip_table hv, ← hsecond]
    cases g.findNext (unseen (g.predecessors v) (discovered.insert v)) (discovered.insert v) with
    | none => exact hrest
    | some found => rfl

/-! ## The sort -/

/-- What the sort comes to. -/
def sorted (g : Digraph) : Except Nat (List Nat) :=
  match g.cycleVertex? with
  | some v => .error v
  | none => .ok g.order

theorem sorts_sorted (hg : g.Bounded) : g.Sorts g.sorted := by
  have hrange : ∀ w ∈ List.range g.size, w < g.size := fun w => List.mem_range.1
  cases hself : g.selfLoop? with
  | some v =>
    refine ⟨.error v, searches_error hg g.size _ [] .empty [] hrange hself, ?_⟩
    rw [sorted, cycleVertex?, hself]
    rfl
  | none =>
    have hloop := fun v => not_edge_of_selfLoop?_eq_none (v := v) hg hself
    have hfirst := searches_ok hg hloop g.size (List.range g.size) .empty [] hrange
      (Nat.le_trans (List.length_filter_le _ _) (by simp)) (by simp)
    rw [List.nil_append, ← finishing] at hfirst
    refine ⟨_, hfirst, ?_⟩
    have hsecond := secondFound?_eq_latePredecessor? (g := g) g.order .empty (nodup_order g)
      fun w hw => ⟨(mem_order hg).1 hw, by simp⟩
    rw [order, ← finishing] at hsecond
    rw [sorted, cycleVertex?, hself, Except.bind, hsecond, order, ← finishing]

/-- The sort reports what `cycleVertex?` reports, and otherwise gives the depth-first order. -/
theorem sorts_iff (hg : g.Bounded) : g.Sorts r ↔ r = g.sorted := by
  constructor
  · rintro ⟨first, hfirst, rfl⟩
    obtain ⟨first', hfirst', heq⟩ := sorts_sorted hg
    rw [heq, hfirst.unique hfirst']
  · rintro rfl
    exact sorts_sorted hg

end Digraph

end AsyncOrder
