import AsyncOrder.Proofs.Graph.Reduction

/-!
# The sweep of a reduction

In a graph without cycles a vertex is swept after all that it leads to.  When its turn is over,
its row tells what it leads to, and the kept edges from it are those that no longer path replaces:

    (k.row u).contains w ↔ g.Path u w                             (Swept.row)
    (u, v) ∈ k.edges ↔ g.Edge u v ∧ ¬ g.Implied u v               (Swept.kept)

So the sweep finds the edges of the reduction, and lists them in the same order:

    g.reduce = g.reduction                                        (reduce_eq_reduction)
-/

namespace AsyncOrder.Digraph

open Relation

variable {g : Digraph} {k k' : Kept} {u v w : Nat} {l vs : List Nat}

/-! ## Targets in topological order -/

theorem Path.idxOf_order_lt (hg : g.Bounded) (hacyc : g.Acyclic) (h : g.Path u v) :
    g.order.idxOf u < g.order.idxOf v := by
  induction h with
  | single h => exact Digraph.idxOf_order_lt hg hacyc h
  | tail _ h ih => exact Nat.lt_trans ih (Digraph.idxOf_order_lt hg hacyc h)

@[simp]
theorem mem_targets {t : SuccessorTable} {order : List Nat} :
    v ∈ targets t order u ↔ v ∈ t.next u := by
  rw [targets, List.mem_eraseDups, List.mem_mergeSort]

theorem nodup_targets (t : SuccessorTable) (order : List Nat) (u : Nat) :
    (targets t order u).Nodup := nodup_eraseDups _

theorem pairwise_targets (t : SuccessorTable) (order : List Nat) (u : Nat) :
    (targets t order u).Pairwise fun v w => order.idxOf v ≤ order.idxOf w := by
  have hsorted := @List.pairwise_mergeSort Nat
    (fun v w => decide (order.idxOf v ≤ order.idxOf w))
    (by simp only [decide_eq_true_eq]; omega)
    (by simp only [Bool.or_eq_true, decide_eq_true_eq]; omega) (t.next u)
  simp only [decide_eq_true_eq] at hsorted
  exact hsorted.sublist (eraseDups_sublist _)

/-- What comes on the way to a target is a target before it. -/
theorem mem_of_targets_eq (hg : g.Bounded) (hacyc : g.Acyclic)
    (h : targets g.table g.order u = vs ++ v :: l) (huw : g.Edge u w) (hwv : g.Path w v) :
    w ∈ vs := by
  have hw : w ∈ targets g.table g.order u :=
    mem_targets.2 ((leads_next_table_iff hg).2 huw)
  have hlt := hwv.idxOf_order_lt hg hacyc
  have hsorted := pairwise_targets g.table g.order u
  rw [h] at hw hsorted
  rcases List.mem_append.1 hw with hw | hw
  · exact hw
  · rcases List.mem_cons.1 hw with rfl | hw
    · exact absurd hlt (Nat.lt_irrefl _)
    · have := (List.pairwise_cons.1 (List.pairwise_append.1 hsorted).2.1).1 w hw
      omega

/-! ## One vertex -/

theorem Kept.row_keep (hu : u < k.reach.size) (hnew : (k.row u).contains v = false) :
    (k.keep u v).row w = if u = w then ((k.row u).insert v).union (k.row v) else k.row w := by
  rw [Kept.keep, if_neg (by rw [hnew]; exact Bool.false_ne_true), Kept.row, Array.getElem?_modify]
  split
  · next h =>
    subst h
    rw [Array.getElem?_eq_getElem hu, Option.map_some, Option.getD_some]
    simp [Kept.row, hu]
  · rfl

/-- From `k`, the sweep has gone on to `k'` through the targets `vs` of `u`. -/
structure Through (g : Digraph) (k k' : Kept) (u : Nat) (vs : List Nat) : Prop where
  size : k'.reach.size = k.reach.size
  row : ∀ w, (k'.row u).contains w = true ↔ ∃ v ∈ vs, ReflTransGen g.Edge v w
  others : ∀ x, x ≠ u → k'.row x = k.row x
  edges : ∃ new : List Nat, k'.edges.toList = k.edges.toList ++ new.map (u, ·) ∧ new.Sublist vs ∧
    ∀ v, v ∈ new ↔ v ∈ vs ∧ ¬ g.Implied u v

/-- A target that kept edges lead to is passed over. -/
theorem Through.pass (h : Through g k k' u vs) (hvs : ∀ x ∈ vs, g.Edge u x) (hv : v ∉ vs)
    (hold : (k'.row u).contains v = true) : Through g k (k'.keep u v) u (vs ++ [v]) := by
  obtain ⟨x, hx, hxv⟩ := (h.row v).1 hold
  have himp : g.Implied u v := by
    refine ⟨x, hvs x hx, ?_⟩
    rcases reflTransGen_iff_eq_or_transGen.1 hxv with rfl | hxv
    · exact absurd hx hv
    · exact hxv
  rw [Kept.keep, if_pos hold]
  obtain ⟨new, hedges, hsub, hnew⟩ := h.edges
  refine ⟨h.size, fun w => ?_, h.others, new, hedges, hsub.trans (List.sublist_append_left _ _),
    fun y => ?_⟩
  · rw [h.row]
    constructor
    · rintro ⟨y, hy, hyw⟩
      exact ⟨y, List.mem_append_left _ hy, hyw⟩
    · rintro ⟨y, hy, hyw⟩
      rcases List.mem_append.1 hy with hy | hy
      · exact ⟨y, hy, hyw⟩
      · obtain rfl := List.mem_singleton.1 hy
        exact ⟨x, hx, hxv.trans hyw⟩
  · rw [hnew, List.mem_append, List.mem_singleton]
    constructor
    · exact fun hy => ⟨Or.inl hy.1, hy.2⟩
    · rintro ⟨hy | rfl, hnot⟩
      · exact ⟨hy, hnot⟩
      · exact absurd himp hnot

/-- A target that kept edges do not lead to gets its edge. -/
theorem Through.keep (h : Through g k k' u vs) (hu : u < k.reach.size) (hne : v ≠ u)
    (hrow : ∀ w, (k.row v).contains w = true ↔ g.Path v w)
    (hway : ∀ w, g.Edge u w → g.Path w v → w ∈ vs)
    (hnew : (k'.row u).contains v = false) : Through g k (k'.keep u v) u (vs ++ [v]) := by
  have hnot : ¬ g.Implied u v := by
    rintro ⟨w, huw, hwv⟩
    have := (h.row v).2 ⟨w, hway w huw hwv, hwv.to_reflTransGen⟩
    rw [hnew] at this
    cases this
  have hrows : ∀ w, (k'.keep u v).row w =
      if u = w then ((k'.row u).insert v).union (k'.row v) else k'.row w :=
    fun w => Kept.row_keep (h.size ▸ hu) hnew
  obtain ⟨new, hedges, hsub, hmem⟩ := h.edges
  refine ⟨?_, fun w => ?_, fun x hx => ?_, new ++ [v], ?_, hsub.append_right _, fun y => ?_⟩
  · rw [Kept.keep, if_neg (by rw [hnew]; exact Bool.false_ne_true), Array.size_modify, h.size]
  · rw [hrows, if_pos rfl, IndexSet.contains_union, IndexSet.contains_insert, Bool.or_eq_true,
      Bool.or_eq_true, decide_eq_true_eq, h.row, h.others v hne, hrow]
    simp only [List.mem_append, List.mem_singleton, or_and_right, exists_or, exists_eq_left,
      reflTransGen_iff_eq_or_transGen (a := v), eq_comm (a := w), or_assoc]
    rfl
  · rw [hrows, if_neg (Ne.symm hx), h.others x hx]
  · rw [Kept.keep, if_neg (by rw [hnew]; exact Bool.false_ne_true), Array.toList_push, hedges]
    simp
  · simp only [List.mem_append, List.mem_singleton, hmem]
    constructor
    · rintro (hy | rfl)
      · exact ⟨Or.inl hy.1, hy.2⟩
      · exact ⟨Or.inr rfl, hnot⟩
    · rintro ⟨hy | rfl, hy'⟩
      · exact Or.inl ⟨hy, hy'⟩
      · exact Or.inr rfl

/-! ## All vertices -/

/-- The vertices of `done` have been swept. -/
structure Swept (g : Digraph) (k : Kept) (done : List Nat) : Prop where
  size : k.reach.size = g.size
  row : ∀ u w, (k.row u).contains w = true ↔ u ∈ done ∧ g.Path u w
  nodup : k.edges.toList.Nodup
  kept : ∀ u v, (u, v) ∈ k.edges.toList ↔ u ∈ done ∧ g.Edge u v ∧ ¬ g.Implied u v

theorem swept_nil (g : Digraph) : Swept g ⟨Array.replicate g.size .empty, #[]⟩ [] := by
  refine ⟨Array.size_replicate, fun u w => ?_, List.nodup_nil, by simp⟩
  rw [Kept.row, Array.getElem?_replicate]
  split <;> simp

theorem Swept.through (h : Swept g k vs) (hg : g.Bounded) (hacyc : g.Acyclic) (hu : u < g.size)
    (hnot : u ∉ vs) (hsucc : ∀ v, g.Edge u v → v ∈ vs) :
    Through g k ((targets g.table g.order u).foldl (Kept.keep u) k) u
      (targets g.table g.order u) := by
  have hempty : ∀ w, (k.row u).contains w = false := fun w =>
    Bool.eq_false_iff.2 fun hw => hnot ((h.row u w).1 hw).1
  have hedge : ∀ v, v ∈ targets g.table g.order u → g.Edge u v := fun v hv =>
    (mem_next_table hu).1 (mem_targets.1 hv)
  have key : ∀ (l ts : List Nat) (k' : Kept), targets g.table g.order u = ts ++ l →
      Through g k k' u ts → Through g k (l.foldl (Kept.keep u) k') u (ts ++ l) := by
    intro l
    induction l with
    | nil =>
      intro ts k' _ hk'
      rw [List.append_nil]
      exact hk'
    | cons v l ih =>
      intro ts k' hts hk'
      have hnd : (ts ++ v :: l).Nodup := hts ▸ nodup_targets g.table g.order u
      have hv : g.Edge u v := hedge v (by rw [hts]; simp)
      have hvdone := hsucc v hv
      have hstep : Through g k (k'.keep u v) u (ts ++ [v]) := by
        cases hc : (k'.row u).contains v with
        | true =>
          refine hk'.pass (fun x hx => hedge x (by rw [hts]; simp [hx])) (fun hvts => ?_) hc
          exact (List.nodup_append.1 hnd).2.2 v hvts v List.mem_cons_self rfl
        | false =>
          exact hk'.keep (h.size ▸ hu) (fun heq => hnot (heq ▸ hvdone))
            (fun w => by rw [h.row]; exact and_iff_right hvdone)
            (fun w huw hwv => mem_of_targets_eq hg hacyc hts huw hwv) hc
      rw [List.foldl_cons, List.append_cons]
      exact ih _ _ (by rw [hts, List.append_cons]) hstep
  refine key _ [] k rfl ⟨rfl, fun w => ?_, fun _ _ => rfl, [], by simp, List.Sublist.refl _, by simp⟩
  rw [hempty]
  simp

theorem Swept.step (h : Swept g k vs) (hg : g.Bounded) (hacyc : g.Acyclic) (hu : u < g.size)
    (hnot : u ∉ vs) (hsucc : ∀ v, g.Edge u v → v ∈ vs) :
    Swept g ((targets g.table g.order u).foldl (Kept.keep u) k) (u :: vs) := by
  have hthrough := h.through hg hacyc hu hnot hsucc
  have htargets : ∀ v, v ∈ targets g.table g.order u ↔ g.Edge u v := fun v => by
    rw [mem_targets, mem_next_table hu]
  generalize (targets g.table g.order u).foldl (Kept.keep u) k = k' at hthrough
  obtain ⟨new, hedges, hsub, hmem⟩ := hthrough.edges
  refine ⟨hthrough.size.trans h.size, fun x w => ?_, ?_, fun x v => ?_⟩
  · by_cases hx : x = u
    · subst hx
      rw [hthrough.row]
      simp only [htargets, List.mem_cons_self, true_and]
      exact TransGen.head'_iff.symm
    · rw [hthrough.others x hx, h.row, List.mem_cons, or_iff_right hx]
  · rw [hedges, List.nodup_append]
    refine ⟨h.nodup, (hsub.nodup (nodup_targets _ _ _)).map fun _ _ h => (Prod.mk.inj h).2, ?_⟩
    rintro ⟨x, v⟩ hx e he rfl
    obtain ⟨w, -, heq⟩ := List.mem_map.1 he
    obtain ⟨rfl, -⟩ := Prod.mk.inj heq
    exact hnot ((h.kept _ _).1 hx).1
  · rw [hedges, List.mem_append, h.kept, List.mem_map, List.mem_cons]
    simp only [Prod.mk.injEq, hmem, htargets]
    constructor
    · rintro (⟨hx, hv⟩ | ⟨y, hy, rfl, rfl⟩)
      · exact ⟨Or.inr hx, hv⟩
      · exact ⟨Or.inl rfl, hy⟩
    · rintro ⟨rfl | hx, hv⟩
      · exact Or.inr ⟨v, hv, rfl, rfl⟩
      · exact Or.inl ⟨hx, hv⟩

/-- In the end every vertex has been swept. -/
theorem swept_sweep (hg : g.Bounded) (hacyc : g.Acyclic) : Swept g g.sweep g.order := by
  have hnd := nodup_order g
  have key : ∀ l m : List Nat, g.order = m ++ l →
      Swept g (l.foldr (fun u k => (targets g.table g.order u).foldl (Kept.keep u) k)
        ⟨Array.replicate g.size .empty, #[]⟩) l := by
    intro l
    induction l with
    | nil => intro _ _; exact swept_nil g
    | cons u l ih =>
      intro m hm
      have hfin := finishing_eq hm
      have hu : u < g.size := (mem_order hg).1 (by rw [hm]; simp)
      have hnot : u ∉ l := by
        rw [hm, List.nodup_append] at hnd
        exact (List.nodup_cons.1 hnd.2.1).1
      exact (ih (m ++ [u]) (by rw [hm, List.append_cons])).step hg hacyc hu hnot fun v huv =>
        List.mem_reverse.1 (mem_of_finishing_eq hg hacyc huv hfin)
  exact key g.order [] rfl

/-! ## The edges in the end -/

/-- Edges in ascending order, each once. -/
def EdgeLt (e f : Nat × Nat) : Prop := e.1 < f.1 ∨ e.1 = f.1 ∧ e.2 < f.2

theorem edgeLe_iff {e f : Nat × Nat} : edgeLe e f = true ↔ e.1 < f.1 ∨ e.1 = f.1 ∧ e.2 ≤ f.2 := by
  simp [edgeLe]

theorem pairwise_reduction (g : Digraph) : g.reduction.edges.Pairwise EdgeLt := by
  rw [reduction]
  refine List.pairwise_flatMap.2 ⟨fun u _ => ?_, ?_⟩
  · exact List.pairwise_map.2 ((pairwise_essential _ _).imp fun h => Or.inr ⟨rfl, h⟩)
  · refine List.pairwise_lt_range.imp fun {u v} huv e he f hf => ?_
    obtain ⟨_, -, rfl⟩ := List.mem_map.1 he
    obtain ⟨_, -, rfl⟩ := List.mem_map.1 hf
    exact Or.inl huv

theorem pairwise_reduce (h : g.sweep.edges.toList.Nodup) : g.reduce.edges.Pairwise EdgeLt := by
  have hle : g.reduce.edges.Pairwise fun e f => edgeLe e f = true :=
    List.pairwise_mergeSort (by intro a b c; simp only [edgeLe_iff]; omega)
      (by intro a b; simp only [Bool.or_eq_true, edgeLe_iff]; omega) _
  have hnd : g.reduce.edges.Nodup := (List.mergeSort_perm _ _).nodup_iff.2 h
  refine (hle.and hnd).imp fun {e f} h => ?_
  rcases edgeLe_iff.1 h.1 with hlt | ⟨heq, hle⟩
  · exact Or.inl hlt
  · refine Or.inr ⟨heq, Nat.lt_of_le_of_ne hle fun h' => h.2 (Prod.ext heq h')⟩

/-- The sweep finds the edges that no longer path replaces. -/
theorem reduce_eq_reduction (hg : g.Bounded) (hacyc : g.Acyclic) : g.reduce = g.reduction := by
  have hswept := swept_sweep hg hacyc
  have hmem : ∀ e : Nat × Nat, e ∈ g.reduce.edges ↔ e ∈ g.reduction.edges := by
    rintro ⟨u, v⟩
    rw [reduce, List.mem_mergeSort, hswept.kept]
    refine Iff.trans (and_iff_right_of_imp fun h => ?_) (edge_reduction hg).symm
    exact (mem_order hg).2 (hg u v h.1).1
  have hirrefl : ∀ e f, EdgeLt e f → e ≠ f := by
    rintro e f h rfl
    rcases h with h | h <;> omega
  have hedges : g.reduce.edges = g.reduction.edges := by
    have hlt := pairwise_reduce hswept.nodup
    have hlt' := pairwise_reduction g
    refine List.Perm.eq_of_pairwise (fun e f _ _ h h' => ?_) hlt hlt' ?_
    · rcases h with h | h <;> rcases h' with h' | h' <;> omega
    · exact (List.perm_ext_iff_of_nodup (hlt.imp (hirrefl _ _)) (hlt'.imp (hirrefl _ _))).2 hmem
  rw [reduce] at hedges ⊢
  rw [reduction] at hedges ⊢
  exact congrArg (Digraph.mk g.size) hedges

end AsyncOrder.Digraph
