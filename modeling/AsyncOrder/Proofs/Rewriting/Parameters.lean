import AsyncOrder.Proofs.Dependence.Passing
import AsyncOrder.Proofs.Rewriting.Controlling
import AsyncOrder.Proofs.Rewriting.Edits
import Mathlib.Data.List.InsertIdx

/-!
# Unused parameters

A parameter is in use if something takes it that does not just pass it on, or if it is passed on
as a parameter that is in use.  One run over the calls, inner ones first, leaves what is in use:

    e ∈ p.removeUnusedParams.1.hierarchyPairs o ↔ e ∈ p.hierarchyPairs o ∧ p.InUse e.2
                                                                        (removeUnusedParams_exact)

What can take a parameter lies in the body of its call, so it is met later in a walk, and has been
dealt with when the call is reached.
-/

namespace AsyncOrder

variable {α β : Type}

/-! ## Lists -/

theorem zip_eraseIdx (l : List α) (l' : List β) (i : Nat) :
    (l.eraseIdx i).zip (l'.eraseIdx i) = (l.zip l').eraseIdx i := by
  induction l generalizing l' i with
  | nil => simp
  | cons a l ih =>
    cases l' with
    | nil => simp
    | cons b l' =>
      cases i with
      | zero => rfl
      | succ i => simp only [List.eraseIdx_cons_succ, List.zip_cons_cons, ih]

theorem drop_eraseIdx_add (l : List α) (n i : Nat) :
    (l.eraseIdx (n + i)).drop n = (l.drop n).eraseIdx i := by
  induction l generalizing n with
  | nil => simp
  | cons a l ih =>
    cases n with
    | zero => simp
    | succ n => simp only [Nat.succ_add, List.eraseIdx_cons_succ, List.drop_succ_cons, ih]

/-- In a list without repetition, what comes after the first of two stands behind it. -/
theorem mem_of_pair_sublist {l l' : List α} {a b : α} (hl : (l ++ a :: l').Nodup)
    (h : [a, b].Sublist (l ++ a :: l')) : b ∈ l' := by
  induction l with
  | nil => exact List.singleton_sublist.1 (List.cons_sublist_cons.1 h)
  | cons c l ih =>
    rw [List.cons_append, List.nodup_cons] at hl
    rcases List.sublist_cons_iff.1 h with h | ⟨r, hr, -⟩
    · exact ih hl.2 h
    · obtain ⟨rfl, -⟩ := List.cons.inj hr
      exact absurd (List.mem_append_right _ List.mem_cons_self) hl.1

open Program Relation

namespace Program

variable {p q r : Program} {o z : OpId} {b c : BlockId} {v w : ValueId} {e : ValueId × ValueId}
  {ids i : Nat}

/-! ## Use -/

/-- Something takes `v` that does not just pass it on. -/
def UsedItself (p : Program) (v : ValueId) : Prop :=
  ∃ o ∈ p.walk, v ∈ p.deps o ∨ v ∈ (p.op o).operands ∧ (p.kind o).isHierarchy = false

/-- `v` is used itself, or a parameter is that it is passed on as. -/
def InUse (p : Program) (v : ValueId) : Prop := ∃ w, ReflTransGen p.HandsOn v w ∧ p.UsedItself w

theorem inUse_iff : p.InUse v ↔ p.UsedItself v ∨ ∃ w, p.HandsOn v w ∧ p.InUse w := by
  constructor
  · rintro ⟨w, hvw, hw⟩
    rcases ReflTransGen.cases_head hvw with rfl | ⟨u, hvu, huw⟩
    · exact Or.inl hw
    · exact Or.inr ⟨u, hvu, w, huw, hw⟩
  · rintro (h | ⟨u, hvu, w, huw, hw⟩)
    · exact ⟨v, .refl, h⟩
    · exact ⟨w, .head hvu huw, hw⟩

/-! ## Calls -/

/-- `o` is a call with the body `b`, where `ids` arguments come before the parameters. -/
def CallsBody (p : Program) (o : OpId) (ids : Nat) (b : BlockId) : Prop :=
  (∃ level, p.kind o = .hierarchy level ids) ∧ p.body? o = some b

theorem CallsBody.pairs (h : p.CallsBody o ids b) :
    p.hierarchyPairs o = (p.op o).operands.zip ((p.block b).args.drop ids) := by
  obtain ⟨⟨level, hkind⟩, hbody⟩ := h
  exact hierarchyPairs_eq hkind hbody

theorem CallsBody.hierarchyIds (h : p.CallsBody o ids b) :
    p.hierarchyIds o = (p.block b).args.take ids := by
  obtain ⟨⟨level, hkind⟩, hbody⟩ := h
  rw [Program.hierarchyIds, hkind, hbody]

theorem calls_of_mem (he : e ∈ p.hierarchyPairs o) : ∃ ids b, p.CallsBody o ids b := by
  obtain ⟨i, hi⟩ := List.mem_iff_getElem?.1 he
  obtain ⟨level, ids, b, hkind, hbody, -⟩ := call_of_pair hi
  exact ⟨ids, b, ⟨level, hkind⟩, hbody⟩

theorem pairs_eq_nil (h : ∀ ids b, ¬ p.CallsBody o ids b) : p.hierarchyPairs o = [] :=
  List.eq_nil_iff_forall_not_mem.2 fun _ he =>
    let ⟨ids, b, hcall⟩ := calls_of_mem he
    h ids b hcall

theorem operand_of_mem (he : e ∈ p.hierarchyPairs o) : e.1 ∈ (p.op o).operands := by
  obtain ⟨ids, b, hcall⟩ := calls_of_mem he
  rw [hcall.pairs] at he
  exact (List.of_mem_zip he).1

theorem CallsBody.isHierarchy (h : p.CallsBody o ids b) : (p.kind o).isHierarchy = true := by
  obtain ⟨⟨level, hkind⟩, -⟩ := h
  rw [hkind]
  rfl

theorem CallsBody.owner (hp : p.Linked) (h : p.CallsBody o ids b) : (p.block b).parentOp = some o :=
  (hp.mem_regions o b).1 (List.mem_of_head? h.2)

/-- A block is the body of no two calls. -/
theorem CallsBody.unique {ids' : Nat} (hp : p.Linked) (h : p.CallsBody o ids b)
    (h' : p.CallsBody z ids' b) :
    o = z :=
  Option.some.inj ((h.owner hp).symm.trans (h'.owner hp))

theorem WellFormed.calls (hp : p.WellFormed) (ho : o.index < p.ops.size)
    (h : (p.kind o).isHierarchy = true) : ∃ ids b, p.CallsBody o ids b := by
  obtain ⟨b, -, hbody, -⟩ := hp.body_hierarchy ho h
  cases hkind : p.kind o with
  | hierarchy level ids => exact ⟨ids, b, ⟨level, hkind⟩, hbody⟩
  | _ => rw [hkind] at h; cases h

theorem WellFormed.length_args (hp : p.WellFormed) (h : p.CallsBody o ids b) :
    (p.block b).args.length = ids + (p.op o).operands.length := by
  have ho := hp.linked.owner_lt (h.owner hp.linked)
  obtain ⟨⟨level, hkind⟩, hbody⟩ := h
  obtain ⟨b', hb, hbody', -⟩ := hp.regions_eq_singleton ho (r := .hierarchy) (by rw [hkind]; rfl)
  obtain rfl := Option.some.inj (hbody.symm.trans hbody')
  obtain ⟨-, -, body, hbodies, hargs⟩ : OpKind.Shape _ _ _ (.hierarchy level ids) :=
    hkind ▸ (hp.laidOut o ho).2.2
  rw [hb, List.map_singleton, List.cons.injEq] at hbodies
  obtain ⟨rfl, -⟩ := hbodies
  have hargs : (p.block b).args.map p.valueType = _ := hargs
  simpa using congrArg List.length hargs

/-! ## Who can take a parameter -/

/-- What takes a parameter of a call lies in the call's body. -/
theorem WellFormed.pair_sublist_walk (hp : p.WellFormed) (he : e ∈ p.hierarchyPairs o)
    (hz : z.index < p.ops.size) (hused : e.2 ∈ p.used z) : [o, z].Sublist p.walk := by
  obtain ⟨ids, b, hcall⟩ := calls_of_mem he
  have harg : e.2 ∈ (p.block b).args := by
    rw [hcall.pairs] at he
    exact List.mem_of_mem_drop (List.of_mem_zip he).2
  obtain ⟨a, ha, hv | ⟨y, -, hv⟩⟩ := visible_iff.1 (hp.visible z hz e.2 hused)
  · obtain ⟨halt, haz⟩ := hp.linked.under_of_outer hz ha
    obtain ⟨j, hj, -⟩ := hp.linked.argOwner?_of_mem hv
    obtain ⟨k, hk, -⟩ := hp.linked.argOwner?_of_mem harg
    have hparent : (p.op a).parent = b :=
      (Prod.mk.inj (Option.some.inj (hj.symm.trans hk))).1
    have howner := hcall.owner hp.linked
    have hnested : a ∈ p.nested o :=
      hp.linked.mem_nested_iff.2 ⟨halt, by rw [parentOp?, hparent, howner]⟩
    have hwalk := hp.mem_walk.2 (hp.linked.owner_lt howner)
    rw [walk_eq_tour] at hwalk ⊢
    exact pair_sublist_of_nested hp.linked (hp.linked.blocksOps_lt _) hwalk rfl hnested haz
  · have hnone := hp.linked.definingOp?_of_arg harg
    rw [(hp.linked.definingOp?_of_result hv).1] at hnone
    cases hnone

/-! ## Fewer parameters -/

/-- `q` is `p`, but calls may have lost some of their pairs. -/
structure Sheds (p q : Program) : Prop extends Follows p q where
  op : ∀ o, q.op o = { p.op o with operands := (q.op o).operands }
  operands : ∀ o, (p.kind o).isHierarchy = false → (q.op o).operands = (p.op o).operands
  outers : ∀ o ids b, p.CallsBody o ids b → (q.op o).operands = (q.hierarchyPairs o).map (·.1)
  block : ∀ b, q.block b = { p.block b with args := (q.block b).args }
  args : ∀ b, (∀ o ids, ¬ p.CallsBody o ids b) → (q.block b).args = (p.block b).args
  inners : ∀ o ids b, p.CallsBody o ids b →
    (q.block b).args = p.hierarchyIds o ++ (q.hierarchyPairs o).map (·.2)
  pairs : ∀ o, (q.hierarchyPairs o).Sublist (p.hierarchyPairs o)

theorem WellFormed.sheds (hp : p.WellFormed) : p.Sheds p where
  toFollows := hp.linked.follows
  op _ := rfl
  operands _ _ := rfl
  block _ := rfl
  args _ _ := rfl
  pairs _ := List.Sublist.refl _
  outers o ids b h := by
    rw [h.pairs, List.map_fst_zip]
    rw [List.length_drop, hp.length_args h]
    omega
  inners o ids b h := by
    rw [h.pairs, List.map_snd_zip, h.hierarchyIds, List.take_append_drop]
    rw [List.length_drop, hp.length_args h]
    omega

section

variable (hcall : q.CallsBody o ids b)
include hcall

theorem CallsBody.calls_removeParam {ids' : Nat} :
    (q.removeParam o i).CallsBody z ids' c ↔ q.CallsBody z ids' c := by
  obtain ⟨⟨level, hkind⟩, hbody⟩ := hcall
  rw [CallsBody, CallsBody, kind_removeParam hkind hbody, body?_removeParam hkind hbody]

theorem CallsBody.pairs_removeParam (ho : o.index < q.ops.size) (hb : b.index < q.blocks.size) :
    (q.removeParam o i).hierarchyPairs o = (q.hierarchyPairs o).eraseIdx i := by
  rw [(hcall.calls_removeParam.2 hcall).pairs, hcall.pairs]
  obtain ⟨⟨level, hkind⟩, hbody⟩ := hcall
  rw [op_removeParam hkind hbody, if_pos ⟨rfl, ho⟩, block_removeParam hkind hbody,
    if_pos ⟨rfl, hb⟩, drop_eraseIdx_add, zip_eraseIdx]

/-- Calls with another body keep their pairs. -/
theorem CallsBody.pairs_removeParam_of_ne (hz : z ≠ o) (hne : q.body? z ≠ some b) :
    (q.removeParam o i).hierarchyPairs z = q.hierarchyPairs z := by
  by_cases h : ∃ ids' c, q.CallsBody z ids' c
  · obtain ⟨ids', c, h⟩ := h
    have hbc : b ≠ c := fun hbc => hne (hbc ▸ h.2)
    rw [(hcall.calls_removeParam.2 h).pairs, h.pairs]
    obtain ⟨⟨level, hkind⟩, hbody⟩ := hcall
    rw [op_removeParam hkind hbody, if_neg fun h => hz h.1, block_removeParam hkind hbody,
      if_neg fun h => hbc h.1]
  · rw [pairs_eq_nil fun ids' c hz => h ⟨ids', c, hz⟩,
      pairs_eq_nil fun ids' c hz => h ⟨ids', c, hcall.calls_removeParam.1 hz⟩]

end

namespace Sheds

theorem calls (h : p.Sheds q) : q.CallsBody o ids b ↔ p.CallsBody o ids b := by
  rw [CallsBody, CallsBody, h.thins.kind, body?, body?, h.thins.regions]

theorem hierarchyIds (hp : p.WellFormed) (h : p.Sheds q) (o : OpId) :
    q.hierarchyIds o = p.hierarchyIds o := by
  by_cases hcall : ∃ ids b, p.CallsBody o ids b
  · obtain ⟨ids, b, hcall⟩ := hcall
    have hlength : (p.hierarchyIds o).length = ids := by
      rw [hcall.hierarchyIds, List.length_take, hp.length_args hcall]
      omega
    rw [(h.calls.2 hcall).hierarchyIds, h.inners o ids b hcall, List.take_left' hlength]
  · have hnil : ∀ r : Program, (∀ ids b, ¬ r.CallsBody o ids b) → r.hierarchyIds o = [] := by
      intro r hr
      rw [Program.hierarchyIds]
      split
      · next level ids b hkind hbody => exact absurd ⟨⟨level, hkind⟩, hbody⟩ (hr ids b)
      · rfl
    rw [hnil q fun ids b hq => hcall ⟨ids, b, h.calls.1 hq⟩,
      hnil p fun ids b hp => hcall ⟨ids, b, hp⟩]

section

variable (hp : p.WellFormed) (h : p.Sheds q) (hcall : q.CallsBody o ids b)
include hp h hcall

theorem bounds : o.index < q.ops.size ∧ b.index < q.blocks.size := by
  have howner := (h.calls.1 hcall).owner hp.linked
  exact ⟨h.thins.size_ops ▸ hp.linked.owner_lt howner,
    h.thins.size_blocks ▸ Linked.block_lt_of_owner howner⟩

theorem pairs_removeParam :
    (q.removeParam o i).hierarchyPairs o = (q.hierarchyPairs o).eraseIdx i :=
  have ⟨ho, hb⟩ := h.bounds hp hcall
  hcall.pairs_removeParam ho hb

/-- Another call has another body. -/
theorem pairs_removeParam_of_ne (hz : z ≠ o) :
    (q.removeParam o i).hierarchyPairs z = q.hierarchyPairs z := by
  refine hcall.pairs_removeParam_of_ne hz fun hbody => hz ?_
  rw [body?, h.thins.regions] at hbody
  have hz := (hp.linked.mem_regions z b).1 (List.mem_of_head? hbody)
  exact Option.some.inj (hz.symm.trans ((h.calls.1 hcall).owner hp.linked))

theorem removeParam : p.Sheds (q.removeParam o i) := by
  have hcall' := h.calls.1 hcall
  obtain ⟨ho, hb⟩ := h.bounds hp hcall
  have hpairs := h.pairs_removeParam (i := i) hp hcall
  obtain ⟨⟨level, hkind⟩, hbody⟩ := id hcall
  constructor
  case toFollows => exact h.toFollows.change hp.linked (.param o i)
  case op =>
    intro z
    rw [op_removeParam hkind hbody]
    split
    · rw [h.op z]
    · exact h.op z
  case operands =>
    intro z hz
    rw [op_removeParam hkind hbody, if_neg, h.operands z hz]
    rintro ⟨rfl, -⟩
    rw [hcall'.isHierarchy] at hz
    cases hz
  case outers =>
    intro z ids' c hz
    rw [op_removeParam hkind hbody]
    by_cases hzo : z = o
    · subst hzo
      rw [if_pos ⟨rfl, ho⟩, hpairs, ← List.eraseIdx_map, ← h.outers z ids' c hz]
    · rw [if_neg fun h => hzo h.1, h.pairs_removeParam_of_ne hp hcall hzo, h.outers z ids' c hz]
  case block =>
    intro c
    rw [block_removeParam hkind hbody]
    split
    · rw [h.block c]
    · exact h.block c
  case args =>
    intro c hc
    rw [block_removeParam hkind hbody, if_neg, h.args c hc]
    rintro ⟨rfl, -⟩
    exact hc o ids hcall'
  case inners =>
    intro z ids' c hz
    rw [block_removeParam hkind hbody]
    by_cases hbc : b = c
    · subst hbc
      obtain rfl := hz.unique hp.linked hcall'
      have hlength : (p.hierarchyIds z).length = ids := by
        rw [hcall'.hierarchyIds, List.length_take, hp.length_args hcall']
        omega
      rw [if_pos ⟨rfl, hb⟩, hpairs, ← List.eraseIdx_map, h.inners z ids b hcall',
        List.eraseIdx_append_of_length_le (by omega), hlength, Nat.add_sub_cancel_left]
    · have hzo : z ≠ o := by
        rintro rfl
        exact hbc (Option.some.inj (hcall'.2.symm.trans hz.2))
      rw [if_neg fun h => hbc h.1, h.pairs_removeParam_of_ne hp hcall hzo, h.inners z ids' c hz]
  case pairs =>
    intro z
    by_cases hzo : z = o
    · subst hzo
      exact hpairs ▸ (List.eraseIdx_sublist _ _).trans (h.pairs z)
    · exact h.pairs_removeParam_of_ne hp hcall hzo ▸ h.pairs z

end

theorem mem_pairs (h : p.Sheds q) (he : e ∈ q.hierarchyPairs o) : e ∈ p.hierarchyPairs o :=
  (h.pairs o).subset he

theorem operand_iff (hp : p.WellFormed) (h : p.Sheds q) (ho : o.index < p.ops.size) :
    v ∈ (q.op o).operands ↔ v ∈ (p.op o).operands ∧ (p.kind o).isHierarchy = false ∨
      ∃ w, (v, w) ∈ q.hierarchyPairs o := by
  cases hkind : (p.kind o).isHierarchy with
  | false =>
    have hnone : ∀ w, (v, w) ∉ q.hierarchyPairs o := fun w hw => by
      obtain ⟨ids, b, hcall⟩ := calls_of_mem (h.mem_pairs hw)
      rw [hcall.isHierarchy] at hkind
      cases hkind
    simp [h.operands o hkind, hnone]
  | true =>
    obtain ⟨ids, b, hcall⟩ := hp.calls ho hkind
    simp [h.outers o ids b hcall]

theorem isUsed_iff (hp : p.WellFormed) (h : p.Sheds q) :
    q.isUsed v = true ↔ p.UsedItself v ∨ ∃ o w, (v, w) ∈ q.hierarchyPairs o := by
  have hlive : ∀ o, q.isLive o = p.isLive o := fun o => by
    rw [isLive, h.op o]
    rfl
  have hwalk : ∀ o, o ∈ q.walk ↔ o.index < p.ops.size := fun o => by
    rw [h.thins.mem_walk hp, hlive]
    exact ⟨lt_of_isLive, hp.linked.isLive⟩
  have hdeps : ∀ o, q.deps o = p.deps o := fun o => by
    rw [deps, h.op o]
    rfl
  rw [Program.isUsed_iff]
  simp only [hwalk, used, List.mem_append, UsedItself, hp.mem_walk]
  constructor
  · rintro ⟨o, ho, hv | hv⟩
    · exact ((h.operand_iff hp ho).1 hv).imp (fun hv => ⟨o, ho, Or.inr hv⟩) fun hw => ⟨o, hw⟩
    · exact Or.inl ⟨o, ho, Or.inl (hdeps o ▸ hv)⟩
  · rintro (⟨o, ho, hv | hv⟩ | ⟨o, w, hw⟩)
    · exact ⟨o, ho, Or.inr ((hdeps o).symm ▸ hv : v ∈ q.deps o)⟩
    · exact ⟨o, ho, Or.inl ((h.operand_iff hp ho).2 (Or.inl hv))⟩
    · obtain ⟨ids, b, hcall⟩ := calls_of_mem (h.mem_pairs hw)
      have ho := hp.linked.owner_lt (hcall.owner hp.linked)
      exact ⟨o, ho, Or.inl ((h.operand_iff hp ho).2 (Or.inr ⟨w, hw⟩))⟩

/-- Once all calls that take `v` have been dealt with, `v` is used if it is in use. -/
theorem isUsed_iff_inUse (hp : p.WellFormed) (h : p.Sheds q)
    (hdone : ∀ o w, (v, w) ∈ p.hierarchyPairs o → ((v, w) ∈ q.hierarchyPairs o ↔ p.InUse w)) :
    q.isUsed v = true ↔ p.InUse v := by
  rw [h.isUsed_iff hp, inUse_iff]
  refine or_congr_right ⟨?_, ?_⟩
  · rintro ⟨o, w, hw⟩
    have hmem := h.mem_pairs hw
    obtain ⟨ids, b, hcall⟩ := calls_of_mem hmem
    have ho := hp.linked.owner_lt (hcall.owner hp.linked)
    exact ⟨w, ⟨o, hp.mem_walk.2 ho, hmem⟩, (hdone o w hmem).1 hw⟩
  · rintro ⟨w, ⟨o, -, hw⟩, huse⟩
    exact ⟨o, w, (hdone o w hw).2 huse⟩

end Sheds

/-! ## One call -/

/-- The parameters that are not in use go, the last pair first, so that those before it keep their
numbers. -/
theorem Sheds.removeEach (hp : p.WellFormed) (h : p.Sheds q) (hcall : p.CallsBody o ids b)
    (pairs kept : List (ValueId × ValueId)) (hpairs : q.hierarchyPairs o = pairs ++ kept)
    (hused : ∀ r, p.Sheds r → (∀ z, z ≠ o → r.hierarchyPairs z = q.hierarchyPairs z) →
      ∀ e ∈ pairs, r.isUsed e.2 = true ↔ p.InUse e.2) :
    let r := pairs.zipIdx.reverse.foldl
      (fun p e => if p.isUsed e.1.2 then p else p.removeParam o e.2) q
    p.Sheds r ∧ (∀ z, z ≠ o → r.hierarchyPairs z = q.hierarchyPairs z) ∧
      ∀ e, e ∈ r.hierarchyPairs o ↔ e ∈ pairs ∧ p.InUse e.2 ∨ e ∈ kept := by
  induction pairs using List.reverseRecOn generalizing q kept with
  | nil => exact ⟨h, fun z _ => rfl, fun e => by simp [hpairs]⟩
  | append_singleton pairs e ih =>
    rw [List.zipIdx_append, List.reverse_append]
    simp only [List.zipIdx_singleton, List.reverse_singleton, List.singleton_append,
      List.foldl_cons, Nat.zero_add]
    have hlast := hused q h (fun _ _ => rfl) e (by simp)
    split
    · next huse =>
      obtain ⟨hr, hother, hmem⟩ := ih h (e :: kept) (by simp [hpairs])
        fun r hr hsame x hx => hused r hr hsame x (List.mem_append_left _ hx)
      refine ⟨hr, hother, fun x => (hmem x).trans ?_⟩
      have huse := hlast.1 huse
      simp only [List.mem_cons, List.mem_append, List.not_mem_nil, or_false]
      constructor
      · rintro (⟨hx, hu⟩ | rfl | hx)
        · exact Or.inl ⟨Or.inl hx, hu⟩
        · exact Or.inl ⟨Or.inr rfl, huse⟩
        · exact Or.inr hx
      · rintro (⟨hx | rfl, hu⟩ | hx)
        · exact Or.inl ⟨hx, hu⟩
        · exact Or.inr (Or.inl rfl)
        · exact Or.inr (Or.inr hx)
    · next huse =>
      have hcall' := h.calls.2 hcall
      have hr := h.removeParam (i := pairs.length) hp hcall'
      have hother : ∀ z, z ≠ o → (q.removeParam o pairs.length).hierarchyPairs z =
          q.hierarchyPairs z := fun z hz => h.pairs_removeParam_of_ne hp hcall' hz
      have hkept : (q.removeParam o pairs.length).hierarchyPairs o = pairs ++ kept := by
        rw [h.pairs_removeParam hp hcall', hpairs, List.append_assoc,
          List.eraseIdx_append_of_length_le (Nat.le_refl _)]
        simp
      obtain ⟨hr, hother', hmem⟩ := ih hr kept hkept fun r hr hsame x hx =>
        hused r hr (fun z hz => (hsame z hz).trans (hother z hz)) x (List.mem_append_left _ hx)
      refine ⟨hr, fun z hz => (hother' z hz).trans (hother z hz), fun x => (hmem x).trans ?_⟩
      simp only [List.mem_append, List.mem_singleton]
      refine or_congr_left (and_congr_left fun hu => (or_iff_left ?_).symm)
      rintro rfl
      exact huse (hlast.2 hu)

/-! ## All calls -/

/-- The calls among `done` have the pairs that are in use, and the others all of theirs. -/
structure Settled (p q : Program) (done : List OpId) : Prop extends Sheds p q where
  settled : ∀ o ∈ done, ∀ e ∈ p.hierarchyPairs o, (e ∈ q.hierarchyPairs o ↔ p.InUse e.2)
  pending : ∀ o, o ∉ done → q.hierarchyPairs o = p.hierarchyPairs o

/-- One more call. -/
theorem Settled.removeUnusedParamsOf (hp : p.WellFormed) {done before : List OpId}
    (hwalk : p.walk = before ++ o :: done) (h : p.Settled q done) :
    p.Settled (q.removeUnusedParamsOf o).1 (o :: done) := by
  have hnodup : (before ++ o :: done).Nodup := hwalk ▸ hp.nodup_walk
  have hnot : o ∉ done := (List.nodup_cons.1 (hnodup.sublist (List.sublist_append_right _ _))).1
  have hpending := h.pending o hnot
  rw [removeUnusedParamsOf_eq, hpending]
  by_cases hcall : ∃ ids b, p.CallsBody o ids b
  · obtain ⟨ids, b, hcall⟩ := hcall
    obtain ⟨hr, hother, hmem⟩ := h.removeEach hp hcall (p.hierarchyPairs o) []
      (by rw [hpending, List.append_nil]) fun r hr hsame e he => by
        refine hr.isUsed_iff_inUse hp fun z w hw => ?_
        -- what takes the parameter comes later in the walk
        obtain ⟨ids', c, hcall'⟩ := calls_of_mem hw
        have hz := hp.linked.owner_lt (hcall'.owner hp.linked)
        have hsub := hp.pair_sublist_walk he hz (List.mem_append_left _ (operand_of_mem hw))
        have hdone : z ∈ done := mem_of_pair_sublist hnodup (hwalk ▸ hsub)
        rw [hsame z fun hzo => hnot (hzo ▸ hdone)]
        exact h.settled z hdone _ hw
    refine ⟨hr, fun z hz e he => ?_, fun z hz => ?_⟩
    · rcases List.mem_cons.1 hz with rfl | hz
      · rw [hmem]
        simp [he]
      · rw [hother z fun hzo => hnot (hzo ▸ hz)]
        exact h.settled z hz e he
    · rw [List.mem_cons, not_or] at hz
      exact (hother z hz.1).trans (h.pending z hz.2)
  · have hnil := pairs_eq_nil fun ids b hc => hcall ⟨ids, b, hc⟩
    rw [hnil]
    refine ⟨h.toSheds, fun z hz e he => ?_, fun z hz => h.pending z fun hd => hz ?_⟩
    · rcases List.mem_cons.1 hz with rfl | hz
      · rw [hnil] at he
        exact absurd he List.not_mem_nil
      · exact h.settled z hz e he
    · exact List.mem_cons_of_mem _ hd

theorem WellFormed.settled (hp : p.WellFormed) (before done : List OpId)
    (hwalk : p.walk = before ++ done) :
    p.Settled (p.changeEach done.reverse Program.removeUnusedParamsOf).1 done := by
  induction done generalizing before with
  | nil => exact ⟨hp.sheds, fun _ ho => absurd ho List.not_mem_nil, fun _ _ => rfl⟩
  | cons o done ih =>
    have h := ih (before ++ [o]) (by rw [hwalk, List.append_assoc]; rfl)
    rw [changeEach_eq] at h ⊢
    rw [List.reverse_cons, List.foldl_append]
    exact h.removeUnusedParamsOf hp hwalk

/-! ## What is left -/

/-- Each parameter that is left is told the new number of its pair. -/
theorem Sheds.paramOwner? (hp : p.WellFormed) (h : p.Sheds q)
    (hi : (q.hierarchyPairs o)[i]? = some e) : q.paramOwner? e.2 = some (o, i) := by
  obtain ⟨level, ids, b, hkind, hbody, -, harg⟩ := call_of_pair hi
  have howner : (q.block b).parentOp = some o := by
    rw [h.thins.owner]
    exact (h.calls.1 ⟨⟨level, hkind⟩, hbody⟩).owner hp.linked
  have hplace : q.argOwner? e.2 = some (b, ids + i) := by
    rw [argOwner?, (h.placed.args b (ids + i) e.2 harg).2]
  simp only [Program.paramOwner?, hierarchyArg?, hplace, howner, hkind]
  rw [if_pos (Nat.le_add_right _ _), Nat.add_sub_cancel_left]

/-- A call all of whose parameters are used stays as it is. -/
theorem removeUnusedParamsOf_eq_self (h : ∀ e ∈ q.hierarchyPairs o, q.isUsed e.2 = true) :
    q.removeUnusedParamsOf o = (q, 0) :=
  List.foldlRecOn (motive := fun x : Program × Nat => x = (q, 0)) _ _ rfl fun x hx e he => by
    have hmem := List.fst_mem_of_mem_zipIdx (List.mem_reverse.1 he)
    simp only [hx, h _ hmem, if_true]

end Program

/-- One run over the calls of an accepted program leaves the parameters in use and no others, and
nothing that is left takes what is gone. -/
theorem removeUnusedParams_exact {source : String} {p : Program}
    (hsource : readProgram source = .ok p) :
    let q := p.removeUnusedParams.1
    p.Sheds q ∧
    (∀ o, ∀ e ∈ p.hierarchyPairs o, e ∈ q.hierarchyPairs o ↔ p.InUse e.2) ∧
    (∀ o, (q.hierarchyPairs o).Sublist (p.hierarchyPairs o)) ∧
    (∀ o, q.hierarchyIds o = p.hierarchyIds o) ∧
    (∀ o, q.isLive o = true → ∀ v ∈ q.used o, ∀ z, ∀ e ∈ p.hierarchyPairs z, e.2 = v →
      e ∈ q.hierarchyPairs z) ∧
    (∀ o i e, (q.hierarchyPairs o)[i]? = some e → q.paramOwner? e.2 = some (o, i)) ∧
    q.removeUnusedParams = (q, 0) := by
  intro q
  have hp := wellFormed_of_readProgram hsource
  have h : p.Settled q p.walk := hp.settled [] p.walk rfl
  have hiff : ∀ o, ∀ e ∈ p.hierarchyPairs o, e ∈ q.hierarchyPairs o ↔ p.InUse e.2 := by
    intro o e he
    obtain ⟨ids, b, hcall⟩ := calls_of_mem he
    exact h.settled o (hp.mem_walk.2 (hp.linked.owner_lt (hcall.owner hp.linked))) e he
  have hused : ∀ v, q.isUsed v = true ↔ p.InUse v := fun v =>
    h.isUsed_iff_inUse hp fun o w hw => hiff o (v, w) hw
  refine ⟨h.toSheds, hiff, h.pairs, h.hierarchyIds hp, ?_, fun o i e => h.paramOwner? hp, ?_⟩
  · rintro o ho v hv z e he rfl
    exact (hiff z e he).2 ((hused e.2).1 (isUsed_iff.2 ⟨o, (h.thins.mem_walk hp).2 ho, hv⟩))
  · refine changeEach_eq_self fun o _ => removeUnusedParamsOf_eq_self fun e he => ?_
    exact (hused e.2).2 ((hiff o e (h.mem_pairs he)).1 he)

/-- The first parameter of the outer call is used for the first one of the inner call only, which
nothing uses. -/
def usedInside : String := "func @f(%a: memref<1, L3>, %b: memref<1, L3>) \x7b
  %h = launch args(%x = %a, %y = %b) \x7b
    %s = segment args(%u = %x, %v = %y) \x7b
      %t = transfer %v <- %v
      end
    \x7d
    end
  \x7d
\x7d
"

theorem removeUnusedParams_exact_usedInside : ∃ p, readProgram usedInside = .ok p ∧
    p.hierarchyPairs ⟨4⟩ = [(⟨0⟩, ⟨2⟩), (⟨1⟩, ⟨3⟩)] ∧
    p.removeUnusedParams.1.hierarchyPairs ⟨4⟩ = [(⟨1⟩, ⟨3⟩)] ∧
    ¬ p.InUse ⟨2⟩ ∧ p.InUse ⟨3⟩ ∧
    p.removeUnusedParams.1.removeUnusedParams = (p.removeUnusedParams.1, 0) := by
  obtain ⟨p, hsource, htest⟩ := accepts_iff.1 (show accepts usedInside (fun p =>
    decide (p.hierarchyPairs ⟨4⟩ = [(⟨0⟩, ⟨2⟩), (⟨1⟩, ⟨3⟩)]) &&
      decide (p.removeUnusedParams.1.hierarchyPairs ⟨4⟩ = [(⟨1⟩, ⟨3⟩)])) = true by
        decide +kernel)
  simp only [Bool.and_eq_true, decide_eq_true_eq] at htest
  obtain ⟨hbefore, hafter⟩ := htest
  obtain ⟨-, hiff, -, -, -, -, hagain⟩ := removeUnusedParams_exact hsource
  have hfirst := hiff ⟨4⟩ (⟨0⟩, ⟨2⟩) (by rw [hbefore]; decide)
  have hsecond := hiff ⟨4⟩ (⟨1⟩, ⟨3⟩) (by rw [hbefore]; decide)
  rw [hafter] at hfirst hsecond
  exact ⟨p, hsource, hbefore, hafter, fun h => absurd (hfirst.2 h) (by decide),
    hsecond.1 (by decide), hagain⟩

end AsyncOrder
