import AsyncOrder.Proofs.Dependence.Threading
import AsyncOrder.Proofs.Scope.Nesting

/-!
# Hazards

An access names a part of a buffer by its offsets; without offsets it is to all of it.  Two
operations that stand one after the other in a block make a hazard if both access some element of
a buffer and one of them writes there, or if the second takes a buffer or an index that the first
computes.  Tracing lets the second wait on the first:

    p.isBefore a v, p.Hazard a v → a's completion token ∈ (p.traceAll none).1.deps v
                                                                            (hazard_waits)

Offsets are known as far as they are constants, so accesses that touch a common element for some
values of the others overlap (`overlaps_of_touches`); and what lies in `a` is waited on through
`a` (`waitToken?_eq`).
-/

namespace AsyncOrder

open Program Relation

variable {p : Program} {mode : ConflictMode} {forced : Option ConflictMode}
variable {a v x y z : OpId} {i j k : Nat} {m w token : ValueId} {r : PartialRef}
variable {σ τ : ValueId → Int} {element : List Int}

/-! ## Touched elements -/

/-- The offset, where `σ` tells the offsets that are no constants. -/
def Program.offset (p : Program) (σ : ValueId → Int) (v : ValueId) : Int :=
  (p.constValue? v).getD (σ v)

/-- Access `i` of `op` is to the element. -/
def Program.Touches (p : Program) (σ : ValueId → Int) (op : OpId) (i : Nat) (element : List Int) :
    Prop :=
  (p.op op).offsets i = [] ∨ ((p.op op).offsets i).map (p.offset σ) = element

instance : Decidable (p.Touches σ x i element) := inferInstanceAs (Decidable (_ ∨ _))

theorem Program.apart_extentOf {v w : ValueId} (h : p.offset σ v = p.offset τ w) :
    (p.extentOf v).apart (p.extentOf w) = false := by
  rw [extentOf, extentOf]
  rw [offset, offset] at h
  cases hv : p.constValue? v with
  | none => rfl
  | some m =>
    cases hw : p.constValue? w with
    | none => rfl
    | some n =>
      rw [hv, hw] at h
      simpa [Extent.apart] using h

theorem Program.apart_of_offsets {vs ws : List ValueId}
    (h : vs.map (p.offset σ) = ws.map (p.offset τ)) :
    ((vs.map p.extentOf).zip (ws.map p.extentOf)).any (fun e => e.1.apart e.2) = false := by
  induction vs generalizing ws with
  | nil => rfl
  | cons v vs ih =>
    cases ws with
    | nil => rfl
    | cons w ws =>
      obtain ⟨hfirst, hrest⟩ := List.cons_eq_cons.1 h
      rw [List.map_cons, List.map_cons, List.zip_cons_cons, List.any_cons, apart_extentOf hfirst,
        ih hrest]
      rfl

theorem Extent.apart_whole (e : Extent) : e.apart .whole = false := by
  cases e <;> rfl

theorem apart_replicate_left (n : Nat) (l : List Extent) :
    ((List.replicate n Extent.whole).zip l).any (fun e => e.1.apart e.2) = false := by
  rw [List.any_eq_false]
  rintro ⟨e, f⟩ he
  obtain rfl := List.eq_of_mem_replicate (List.of_mem_zip he).1
  exact Bool.false_ne_true

theorem apart_replicate_right (n : Nat) (l : List Extent) :
    (l.zip (List.replicate n Extent.whole)).any (fun e => e.1.apart e.2) = false := by
  rw [List.any_eq_false]
  rintro ⟨e, f⟩ he
  obtain rfl := List.eq_of_mem_replicate (List.of_mem_zip he).2
  rw [Extent.apart_whole]
  exact Bool.false_ne_true

theorem Program.base_refAt (offsets : List ValueId) : (p.refAt m offsets).base = m := by
  rw [refAt]
  split <;> rfl

/-- Accesses to a common element overlap. -/
theorem Program.overlaps_of_touches (hx : p.Touches σ x i element) (hy : p.Touches τ y j element) :
    (p.operandRef y j m).overlaps (p.operandRef x i m) = true := by
  have hapart : ((p.operandRef y j m).indices.zip (p.operandRef x i m).indices).any
      (fun e => e.1.apart e.2) = false := by
    rw [operandRef, operandRef, refAt, refAt]
    rcases hy with hy | hy
    · rw [hy]
      exact apart_replicate_left _ _
    · rcases hx with hx | hx
      · rw [hx]
        exact apart_replicate_right _ _
      · split
        · exact apart_replicate_left _ _
        · split
          · exact apart_replicate_right _ _
          · exact apart_of_offsets (hy.trans hx.symm)
  have hbase : (p.operandRef y j m).base = (p.operandRef x i m).base := by
    rw [operandRef, operandRef, base_refAt, base_refAt]
  rw [PartialRef.overlaps, hbase, hapart]
  simp

/-! ## Conflicting operands -/

theorem Program.mem_operandUses :
    (x, i) ∈ p.operandUses m ↔ x ∈ p.walk ∧ (p.op x).operands[i]? = some m := by
  simp only [operandUses, List.mem_flatMap, List.mem_filterMap, Prod.exists,
    List.mem_zipIdx_iff_getElem?]
  constructor
  · rintro ⟨o, ho, w, j, hw, hsome⟩
    split at hsome
    · next heq =>
      obtain ⟨rfl, rfl⟩ := Prod.mk.inj (Option.some.inj hsome)
      exact ⟨ho, heq ▸ hw⟩
    · cases hsome
  · rintro ⟨hx, hm⟩
    exact ⟨x, hx, m, i, hm, by rw [if_pos rfl]⟩

/-- Operand `i` of `x`, which is not in `v`, conflicts with the reference `r` of `v`. -/
structure Program.ConflictsAt (p : Program) (mode : ConflictMode) (v x : OpId) (i : Nat)
    (r : PartialRef) : Prop where
  outside : x ≠ v ∧ v ∉ p.ancestors x
  operand : (p.op x).operands[i]? = some r.base
  admits : mode.admits (p.operandRole x i) = true
  overlaps : r.overlaps (p.operandRef x i r.base) = true

theorem Program.mem_conflicts :
    x ∈ p.conflicts v mode r ↔ x ∈ p.walk ∧ ∃ i, p.ConflictsAt mode v x i r := by
  simp only [conflicts, List.mem_filterMap, Prod.exists, mem_operandUses]
  constructor
  · rintro ⟨x', i, ⟨hx, hoperand⟩, hsome⟩
    split at hsome
    · cases hsome
    · next hout =>
      split at hsome
      · next hconflict =>
        obtain rfl := Option.some.inj hsome
        simp only [Bool.or_eq_true, decide_eq_true_eq, not_or] at hout
        rw [Bool.and_eq_true] at hconflict
        exact ⟨hx, i, hout, hoperand, hconflict.1, hconflict.2⟩
      · cases hsome
  · rintro ⟨hx, i, hout, hoperand, hadmits, hoverlaps⟩
    refine ⟨x, i, ⟨hx, hoperand⟩, ?_⟩
    rw [if_neg (by simpa [not_or] using hout), if_pos (by rw [hadmits, hoverlaps]; rfl)]

/-! ## What an operation performs -/

/-- `y` is `v`, or lies in the body of the compute `v`. -/
def Program.Performs (p : Program) (v y : OpId) : Prop :=
  y = v ∨ p.kind v = .compute ∧ v ∈ p.ancestors y

theorem Program.lt_of_operand (h : (p.op x).operands[i]? = some m) : x.index < p.ops.size := by
  by_contra hle
  rw [op_of_size_le (Nat.le_of_not_lt hle)] at h
  cases h

variable (hp : p.WellFormed)
include hp

theorem Program.WellFormed.mem_performed (hv : v.index < p.ops.size) (hy : p.Performs v y)
    (hoperand : (p.op y).operands[j]? = some m) : y ∈ p.performed v := by
  have hylt := lt_of_operand hoperand
  rw [performed]
  by_cases hkind : p.kind v = .compute
  · obtain ⟨b, hb, hbody, -⟩ := hp.regions_eq_singleton hv (r := .compute) (by rw [hkind]; rfl)
    have hnested : p.nested v = (p.block b).ops := by
      rw [nested, hb, List.flatMap_singleton]
    rw [if_pos hkind, hbody]
    have hunder := (hp.linked.around_iff hylt).1 (hy.imp Eq.symm And.right)
    rcases ReflTransGen.cases_head hunder with rfl | ⟨c, hc, hcy⟩
    · -- a compute has no operands of its own
      obtain ⟨hnil, -⟩ : OpKind.Shape _ _ _ .compute := hkind ▸ (hp.laidOut v hv).2.2
      rw [List.map_eq_nil_iff.1 hnil] at hoperand
      cases hoperand
    · have hlt := (hp.linked.siblings_nested hv).lt
      exact (mem_tour hp.linked (hnested ▸ hlt)).2 ⟨c, hnested ▸ hc.2, hcy⟩
  · rw [if_neg hkind]
    rcases hy with rfl | ⟨h, -⟩
    · exact List.mem_singleton_self _
    · exact absurd h hkind

omit hp in
/-- Only an index is an operand without a role. -/
theorem OpKind.Shape.role_of_memref {kind : OpKind} {ts rs : List ValueType}
    {bodies : List Signature} {t : ValueType} (h : kind.Shape ts rs bodies)
    (ht : ts[i]? = some t) (hm : t.isMemref = true) :
    (kind.operandRole i ts.length).reads = true ∨
      (kind.operandRole i ts.length).writes = true := by
  have hindex : t ≠ .index := fun h => by rw [h] at hm; cases hm
  cases kind with
  | muli | addi =>
    obtain ⟨rfl, -⟩ := h
    have := List.mem_of_getElem? ht
    simp_all
  | apply => exact absurd (h.1 t (List.mem_of_getElem? ht)) hindex
  | branch =>
    obtain ⟨rfl, -⟩ := h
    have := List.mem_of_getElem? ht
    simp_all
  | transfer dstOffsets =>
    obtain ⟨⟨dst, src, atDst, atSrc, rfl, -, hdst, hsrc⟩, -⟩ := h
    match i, ht with
    | 0, _ => exact Or.inr rfl
    | 1, _ => exact Or.inl rfl
    | i + 2, ht =>
      have hmem : t ∈ atDst ++ atSrc := List.mem_of_getElem? ht
      rcases List.mem_append.1 hmem with hmem | hmem
      · exact absurd (hdst.2.1 t hmem) hindex
      · exact absurd (hsrc.2.1 t hmem) hindex
  | put channel =>
    obtain ⟨⟨base, offsets, rfl, haccess⟩, -⟩ := h
    match i, ht with
    | 0, _ => exact Or.inl rfl
    | i + 1, ht => exact absurd (haccess.2.1 t (List.mem_of_getElem? ht)) hindex
  | get channel =>
    obtain ⟨⟨base, offsets, rfl, haccess⟩, -⟩ := h
    match i, ht with
    | 0, _ => exact Or.inr rfl
    | i + 1, ht => exact absurd (haccess.2.1 t (List.mem_of_getElem? ht)) hindex
  | loop kind =>
    obtain ⟨body, -, rfl, -⟩ := h
    match i, ht with
    | 0, ht | 1, ht | 2, ht => exact absurd (Option.some.inj ht).symm hindex
    | i + 3, ht =>
      obtain ⟨hlt, -⟩ := List.getElem?_eq_some_iff.1 ht
      refine Or.inl ?_
      rw [operandRole, if_neg]
      · rfl
      · simp only [Bool.or_eq_true, decide_eq_true_eq]
        omega
  | copy | transform =>
    rw [operandRole]
    split
    · exact Or.inl rfl
    · exact Or.inl rfl
  | _ => exact Or.inl rfl

/-- A parameter has the type of what it receives. -/
theorem Program.WellFormed.param_of_operand {level : Level} {ids : Nat}
    (hx : x.index < p.ops.size) (hkind : p.kind x = .hierarchy level ids)
    (hoperand : (p.op x).operands[i]? = some m) :
    ∃ inner, (p.hierarchyPairs x)[i]? = some (m, inner) ∧ p.valueType inner = p.valueType m := by
  obtain ⟨b, hb, hbody, -⟩ := hp.regions_eq_singleton hx (r := .hierarchy) (by rw [hkind]; rfl)
  obtain ⟨-, -, body, hbodies, hargs⟩ : OpKind.Shape _ _ _ (.hierarchy level ids) :=
    hkind ▸ (hp.laidOut x hx).2.2
  rw [hb, List.map_singleton, List.cons.injEq] at hbodies
  obtain ⟨rfl, -⟩ := hbodies
  have htypes : ((p.block b).args.drop ids).map p.valueType =
      (p.op x).operands.map p.valueType := by
    have hargs : (p.block b).args.map p.valueType = _ := hargs
    rw [List.map_drop, hargs, List.drop_left' List.length_replicate]
  have htype := congrArg (fun l => l[i]?) htypes
  simp only [List.getElem?_map, hoperand, Option.map_some, Option.map_eq_some_iff] at htype
  obtain ⟨inner, hinner, htype⟩ := htype
  refine ⟨inner, ?_, htype⟩
  rw [hierarchyPairs, hkind, hbody]
  exact List.getElem?_zip_eq_some.2 ⟨hoperand, hinner⟩

omit hp in
theorem Program.classify_role (v : ValueId) :
    (p.classify v).reads = true ∨ (p.classify v).writes = true := by
  rw [classify]
  split
  · exact Or.inr rfl
  · exact Or.inl rfl

/-- A buffer is read or written wherever it is an operand. -/
theorem Program.WellFormed.role_of_memref (hoperand : (p.op x).operands[i]? = some m)
    (hm : (p.valueType m).isMemref = true) :
    (p.operandRole x i).reads = true ∨ (p.operandRole x i).writes = true := by
  have hx := lt_of_operand hoperand
  rw [operandRole, ← kind]
  by_cases h : (p.kind x).isHierarchy = true
  · obtain ⟨level, ids, hkind⟩ : ∃ level ids, p.kind x = .hierarchy level ids := by
      cases hk : p.kind x <;> simp_all [OpKind.isHierarchy]
    obtain ⟨inner, hpair, htype⟩ := hp.param_of_operand hx hkind hoperand
    rw [if_pos h, hpair]
    simp only [htype, hm, if_true]
    exact classify_role inner
  · have hrole := (hp.laidOut x hx).2.2.role_of_memref (i := i) (t := p.valueType m)
      (by rw [List.getElem?_map, hoperand]; rfl) hm
    rw [if_neg h]
    rwa [List.length_map] at hrole

/-- The buffers that `v` takes are among what it reads or writes. -/
theorem Program.WellFormed.mem_accesses (hv : v.index < p.ops.size) (hy : p.Performs v y)
    (hoperand : (p.op y).operands[j]? = some m) (hm : (p.valueType m).isMemref = true) :
    ((p.operandRole y j).reads = true → p.operandRef y j m ∈ (p.accesses v).reads) ∧
      ((p.operandRole y j).writes = true → p.operandRef y j m ∈ (p.accesses v).writes) := by
  have hperformed := hp.mem_performed hv hy hoperand
  have hbuffer : (p.operandRole y j, p.operandRef y j m) ∈ p.bufferRefs y := by
    refine List.mem_filterMap.2 ⟨(m, j), List.mem_zipIdx_iff_getElem?.2 hoperand, ?_⟩
    simp only [hm, if_true]
  constructor
  · intro hreads
    refine List.mem_eraseDups.2 (List.mem_flatMap.2 ⟨y, hperformed, ?_⟩)
    exact List.mem_filterMap.2 ⟨_, hbuffer, by simp only [hreads, if_true]⟩
  · intro hwrites
    refine List.mem_eraseDups.2 (List.mem_flatMap.2 ⟨y, hperformed, ?_⟩)
    exact List.mem_append_left _ (List.mem_filterMap.2 ⟨_, hbuffer, by simp only [hwrites, if_true]⟩)

theorem Program.WellFormed.mem_scalarIns (hv : v.index < p.ops.size) (hy : p.Performs v y)
    (hoperand : (p.op y).operands[j]? = some w) (hmemref : (p.valueType w).isMemref = false)
    (htoken : (p.valueType w).isToken = false) : w ∈ (p.accesses v).scalarIns := by
  refine List.mem_eraseDups.2 (List.mem_flatMap.2 ⟨y, hp.mem_performed hv hy hoperand, ?_⟩)
  exact List.mem_filter.2 ⟨List.mem_of_getElem? hoperand, by simp [hmemref, htoken]⟩

/-! ## Whom to wait on -/

/-- What lies in `a` is waited on through `a`. -/
theorem Program.WellFormed.waitToken?_eq (hbefore : p.isBefore a v = true)
    (htoken : p.completionToken? a = some token) (hx : x.index < p.ops.size)
    (hax : p.Under (fun _ => true) a x) : p.waitToken? x v = some token := by
  obtain ⟨ha, hv⟩ := hp.linked.lt_of_isBefore hbefore
  obtain ⟨hparent, howner⟩ := parent_eq_of_isBefore hbefore
  have hne : a ≠ v := by
    rintro rfl
    exact Nat.lt_irrefl _ ((hp.linked.isBefore_iff ha ha).1 hbefore).2
  have hfirst : ∀ outer, p.firstWaitToken? v (a :: outer) = some token := fun outer => by
    rw [firstWaitToken?, if_neg hne, if_pos hbefore, htoken]
  rw [waitToken?]
  induction hax with
  | refl => exact hfirst _
  | @tail c x hac hcx ih =>
    obtain ⟨-, hc⟩ := hp.linked.mem_nested_iff.1 hcx.2
    -- neither the waiter nor what stands in its block lies in `a`
    have hxa : p.parentOp? x ≠ p.parentOp? a := by
      intro hsame
      have heq := hp.linked.eq_of_under ha hsame.symm (hac.tail hcx)
      have hle := Under.index_le hp.linked hac
      rw [heq] at hle
      exact Nat.not_lt.2 hle (hp.linked.nested_lt hcx.2)
    have hxv : x ≠ v := fun h => hxa (by rw [h, howner])
    have hnot : p.isBefore x v = false := by
      by_contra h
      exact hxa ((parent_eq_of_isBefore (by simpa using h)).2.trans howner.symm)
    rw [hp.linked.ancestors_of_parent hx hc, firstWaitToken?, if_neg hxv,
      if_neg (by rw [hnot]; exact Bool.false_ne_true)]
    exact ih (hp.linked.owner_lt hc)

/-- Accesses within `a` that conflict with what `v` refers to let `v` wait on `a`. -/
theorem Program.WellFormed.mem_conflictTokens (hbefore : p.isBefore a v = true)
    (htoken : p.completionToken? a = some token) (hax : p.Under (fun _ => true) a x)
    (hoperand : (p.op x).operands[i]? = some m) {refs : List PartialRef} (hr : r ∈ refs)
    (hbase : r.base = m) (hadmits : mode.admits (p.operandRole x i) = true)
    (hoverlaps : r.overlaps (p.operandRef x i m) = true) :
    token ∈ p.conflictTokens v mode refs := by
  have hx := lt_of_operand hoperand
  have hwait := hp.waitToken?_eq hbefore htoken hx hax
  have houtside : ¬ p.Under (fun _ => true) v x := by
    intro hvx
    obtain ⟨ha, hv⟩ := hp.linked.lt_of_isBefore hbefore
    have howner := (parent_eq_of_isBefore hbefore).2
    have heq : a = v := by
      rcases hax.total hp.linked hvx with h | h
      · exact hp.linked.eq_of_under ha howner h
      · exact (hp.linked.eq_of_under hv howner.symm h).symm
    subst heq
    exact Nat.lt_irrefl _ ((hp.linked.isBefore_iff ha ha).1 hbefore).2
  have hnot : ¬ (v = x ∨ v ∈ p.ancestors x) := fun h => houtside ((hp.linked.around_iff hx).1 h)
  rw [not_or] at hnot
  refine List.mem_filterMap.2 ⟨x, List.mem_flatMap.2 ⟨r, hr, mem_conflicts.2 ?_⟩, hwait⟩
  subst hbase
  exact ⟨hp.mem_walk.2 hx, i, ⟨Ne.symm hnot.1, hnot.2⟩, hoperand, hadmits, hoverlaps⟩

/-- The compute that makes one of `ws` is waited on. -/
theorem Program.WellFormed.mem_makerTokens (hbefore : p.isBefore a v = true)
    (htoken : p.completionToken? a = some token) (hkind : p.kind a = .compute)
    (hres : w ∈ (p.op a).results) {ws : List ValueId} (hw : w ∈ ws) :
    token ∈ p.makerTokens v ws := by
  obtain ⟨ha, -⟩ := hp.linked.lt_of_isBefore hbefore
  have hne : a ≠ v := by
    rintro rfl
    exact Nat.lt_irrefl _ ((hp.linked.isBefore_iff ha ha).1 hbefore).2
  refine List.mem_filterMap.2 ⟨a, List.mem_filterMap.2 ⟨w, hw, ?_⟩,
    hp.waitToken?_eq hbefore htoken ha .refl⟩
  rw [madeBy?, (hp.linked.definingOp?_of_result hres).1, Option.filter_some, if_pos]
  simp [hne, hkind]

/-! ## Hazards -/

omit hp

/-- One of the two writes, the other reads or writes. -/
def Role.Conflict (r s : Role) : Prop :=
  r.writes = true ∧ (s.reads = true ∨ s.writes = true) ∨
    s.writes = true ∧ (r.reads = true ∨ r.writes = true)

/-- Why `v` has to wait on `a`. -/
inductive Program.Hazard (p : Program) (a v : OpId) : Prop
  /-- Something in `a` and something that `v` performs access an element of a buffer. -/
  | access {x y : OpId} {i j : Nat} {m : ValueId} {σ τ : ValueId → Int} {element : List Int} :
    (x = a ∨ a ∈ p.ancestors x) → p.Performs v y →
    (p.op x).operands[i]? = some m → (p.op y).operands[j]? = some m →
    (p.valueType m).isMemref = true → (p.operandRole x i).Conflict (p.operandRole y j) →
    p.Touches σ x i element → p.Touches τ y j element → Hazard p a v
  /-- The compute `a` makes a buffer or an index that `v` takes. -/
  | taken {y : OpId} {j : Nat} {w : ValueId} :
    p.kind a = .compute → p.Performs v y → (p.op y).operands[j]? = some w →
    (p.valueType w).isToken = false → w ∈ (p.op a).results → Hazard p a v

include hp

theorem Program.WellFormed.mem_sinkTokens_of_hazard (hbefore : p.isBefore a v = true)
    (htoken : p.completionToken? a = some token) (h : p.Hazard a v) :
    token ∈ p.sinkTokens none v := by
  obtain ⟨-, hv⟩ := hp.linked.lt_of_isBefore hbefore
  simp only [sinkTokens, List.mem_append, Option.getD_none]
  cases h with
  | @access x y i j m σ τ element hx hy hxm hym hm hroles hσ hτ =>
    have hax := (hp.linked.around_iff (lt_of_operand hxm)).1 (hx.imp_left Eq.symm)
    have hbase : (p.operandRef y j m).base = m := base_refAt _
    have hoverlaps := overlaps_of_touches (m := m) hσ hτ
    obtain ⟨hreads, hwrites⟩ := hp.mem_accesses hv hy hym hm
    have hread : (p.operandRole y j).reads = true → (p.operandRole x i).writes = true →
        token ∈ p.conflictTokens v .readAfterWrite (p.accesses v).reads := fun hr hw =>
      hp.mem_conflictTokens hbefore htoken hax hxm (hreads hr) hbase hw hoverlaps
    have hwrite : (p.operandRole y j).writes = true →
        ((p.operandRole x i).reads = true ∨ (p.operandRole x i).writes = true) →
        token ∈ p.conflictTokens v .anyAfterAny (p.accesses v).writes := fun hw h =>
      hp.mem_conflictTokens hbefore htoken hax hxm (hwrites hw) hbase
        (by rw [ConflictMode.admits, Bool.or_eq_true]; exact h) hoverlaps
    rcases hroles with ⟨hw, hr | hw'⟩ | ⟨hw, h⟩
    · exact Or.inl (Or.inl (Or.inl (hread hr hw)))
    · exact Or.inl (Or.inl (Or.inr (hwrite hw' (Or.inr hw))))
    · exact Or.inl (Or.inl (Or.inr (hwrite hw h)))
  | @taken y j w hkind hy hyw htype hres =>
    cases hmemref : (p.valueType w).isMemref with
    | true =>
      obtain ⟨hreads, hwrites⟩ := hp.mem_accesses hv hy hyw hmemref
      have hmem : p.operandRef y j w ∈ (p.accesses v).reads ++ (p.accesses v).writes :=
        List.mem_append.2 ((hp.role_of_memref hyw hmemref).imp hreads hwrites)
      refine Or.inl (Or.inr (hp.mem_makerTokens hbefore htoken hkind hres ?_))
      exact List.mem_map.2 ⟨_, hmem, base_refAt _⟩
    | false =>
      refine Or.inr (hp.mem_makerTokens hbefore htoken hkind hres ?_)
      exact List.mem_append_left _
        (List.mem_append_right _ (hp.mem_scalarIns hv hy hyw hmemref htype))

omit hp

/-- Tracing lets an operation wait on what it makes a hazard with. -/
theorem hazard_waits {source : String} (hsource : readProgram source = .ok p)
    (hasync : (p.kind v).isAsync = true) (hbefore : p.isBefore a v = true)
    (htoken : p.completionToken? a = some token) (h : p.Hazard a v) :
    token ∈ (p.traceAll none).1.deps v := by
  have hp := wellFormed_of_readProgram hsource
  refine (hp.mem_deps_traceAll (hp.linked.lt_of_isBefore hbefore).2).2 (Or.inr (Or.inl ?_))
  exact ⟨hasync, hp.mem_sinkTokens_of_hazard hbefore htoken h⟩

/-- The loop writes elements of `%b`, of which the last transfer reads one. -/
def writtenInLoop : String := "func @f(%a: memref<1, L2>, %b: memref<1, L2>, %n: index) \x7b
  %c = const 3
  %s = join
  %l = for %i = %n to %n step %n iter(%k = %s) \x7b
    %t = transfer [%k] %b[%i] <- %a
    yield %t
  \x7d
  %u = transfer %a <- %b[%c]
\x7d
"

theorem hazard_waits_writtenInLoop : ∃ p, readProgram writtenInLoop = .ok p ∧
    p.isBefore ⟨4⟩ ⟨5⟩ = true ∧ p.Hazard ⟨4⟩ ⟨5⟩ ∧ ⟨8⟩ ∈ (p.traceAll none).1.deps ⟨5⟩ := by
  obtain ⟨p, t, c, hsource, -, htest⟩ := passes_iff.1
    (show passes writtenInLoop (fun p _ _ =>
      (p.kind ⟨5⟩).isAsync && p.isBefore ⟨4⟩ ⟨5⟩ && p.completionToken? ⟨4⟩ = some ⟨8⟩ &&
      p.ancestors ⟨2⟩ = [⟨4⟩] &&
      (p.op ⟨2⟩).operands[0]? = some ⟨1⟩ && (p.op ⟨5⟩).operands[1]? = some ⟨1⟩ &&
      (p.valueType ⟨1⟩).isMemref && (p.operandRole ⟨2⟩ 0).writes && (p.operandRole ⟨5⟩ 1).reads &&
      p.Touches (fun _ => 3) ⟨2⟩ 0 [3] && p.Touches (fun _ => 0) ⟨5⟩ 1 [3]) = true by
        decide +kernel)
  simp only [Bool.and_eq_true, decide_eq_true_eq] at htest
  obtain ⟨⟨⟨⟨⟨⟨⟨⟨⟨⟨hasync, hbefore⟩, htoken⟩, hwithin⟩, hwrite⟩, hread⟩, hm⟩, hwrites⟩, hreads⟩, hσ⟩,
    hτ⟩ := htest
  have hazard : p.Hazard ⟨4⟩ ⟨5⟩ :=
    .access (Or.inr (hwithin ▸ List.mem_singleton_self _)) (Or.inl rfl) hwrite hread hm
      (Or.inl ⟨hwrites, Or.inl hreads⟩) hσ hτ
  exact ⟨p, hsource, hbefore, hazard, hazard_waits hsource hasync hbefore htoken hazard⟩

end AsyncOrder
