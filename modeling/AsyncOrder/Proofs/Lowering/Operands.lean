import AsyncOrder.Proofs.Lowering.Builds

/-!
# Operations without regions

What the operands of an operation are, for each form of operation, and that they have the layout
of its kind.
-/

namespace AsyncOrder.Lowering

/-! ## Types of usable values -/

section Usable

variable {c : Construction} {v : ValueId} {vs : List ValueId}

theorem type_eq_index (h : Usable c .index v) : c.program.valueType v = .index := by
  simpa [Demand.accepts] using h.2

theorem type_eq_token (h : Usable c .token v) : c.program.valueType v = .token :=
  ValueType.isToken_iff.1 h.2

theorem types_eq_index (h : ∀ v ∈ vs, Usable c .index v) :
    ∀ t ∈ vs.map c.program.valueType, t = .index := by
  rintro t ht
  obtain ⟨v, hv, rfl⟩ := List.mem_map.1 ht
  exact type_eq_index (h v hv)

theorem types_eq_token (h : ∀ v ∈ vs, Usable c .token v) :
    ∀ t ∈ vs.map c.program.valueType, t = .token := by
  rintro t ht
  obtain ⟨v, hv, rfl⟩ := List.mem_map.1 ht
  exact type_eq_token (h v hv)

end Usable

/-- A buffer that may be used, and its offsets. -/
structure UsableAccess (c : Construction) (base : ValueId) (offsets : List ValueId) : Prop where
  usable : Usable c .memref base
  usable_offsets : ∀ v ∈ offsets, Usable c .index v
  rank : offsets = [] ∨ (c.program.valueType base).rank? = some offsets.length

theorem UsableAccess.isAccess {c : Construction} {base : ValueId} {offsets : List ValueId}
    (h : UsableAccess c base offsets) :
    IsAccess (c.program.valueType base) (offsets.map c.program.valueType) := by
  refine ⟨h.usable.2, types_eq_index h.usable_offsets, ?_⟩
  rw [List.map_eq_nil_iff, List.length_map]
  exact h.rank

theorem reads_resolveAccess (a : Source.Access) :
    Reads (resolveAccess a) fun c r =>
      ∃ base offsets, r = some (base, offsets) ∧ UsableAccess c base offsets := by
  unfold resolveAccess
  refine Reads.bind (reads_resolve .memref a.base) fun base => ?_
  refine Reads.bind (reads_resolveAll .index a.offsets) fun offsets => ?_
  split
  · next base offsets =>
    refine Reads.bind reads_get fun s => ?_
    split
    · next rank hrank =>
      split
      · next hlen =>
        refine (reads_pure _).mono ?_
        rintro c r hr hs ⟨_, ⟨⟩, -, hoffsets⟩ ⟨_, ⟨⟩, hbase⟩
        refine ⟨base, offsets, hr, hbase, hoffsets, ?_⟩
        rw [← hs.program, hrank]
        rw [Bool.or_eq_true, List.isEmpty_iff, decide_eq_true_eq] at hlen
        exact hlen.imp id fun h => congrArg some h.symm
      · exact Reads.never (reads_error _ _ _ _) fun _ => reads_pure_true _
    · next hrank =>
      refine (reads_pure _).mono ?_
      rintro c r hr hs - ⟨_, ⟨⟩, hbase⟩
      have hmem := hbase.2
      rw [← hs.program] at hmem
      cases htype : s.program.valueType base with
      | memref rank space => simp [htype, ValueType.rank?] at hrank
      | token => simp [htype, Demand.accepts, ValueType.isMemref] at hmem
      | index => simp [htype, Demand.accepts, ValueType.isMemref] at hmem
  · next hnot =>
    refine (reads_pure _).mono ?_
    rintro c r hr ⟨os, hos, -⟩ ⟨b, hb, -⟩
    exact absurd hos (hnot b os hb)

/-! ## Built operations -/

theorem reads_buildUnary (kind : OpKind) (demand : Demand) (a : Source.Name) :
    Reads (buildUnary kind demand a) fun c r =>
      ∃ v, r = some ({ kind, operands := [v] }, []) ∧ Usable c demand v := by
  refine Reads.bind (reads_resolve demand a) fun _ => (reads_pure _).mono ?_
  rintro c _ rfl ⟨v, rfl, hv⟩
  exact ⟨v, rfl, hv⟩

theorem reads_buildBinary (kind : OpKind) (demand : Demand) (types : List ValueType)
    (a b : Source.Name) :
    Reads (buildBinary kind demand types a b) fun c r =>
      ∃ v w, r = some ({ kind, operands := [v, w] }, types) ∧ Usable c demand v ∧
        Usable c demand w := by
  refine Reads.bind (reads_resolveAll demand [a, b]) fun _ => (reads_pure _).mono ?_
  rintro c _ rfl ⟨vs, rfl, hlen, hvs⟩
  match vs, hlen with
  | [v, w], _ => exact ⟨v, w, rfl, hvs v (by simp), hvs w (by simp)⟩

theorem reads_lowerType (type : Source.TypeExpr) : Reads (lowerType type) fun _ _ => True := by
  cases type with
  | token => exact reads_pure_true _
  | index => exact reads_pure_true _
  | memref rank space span =>
    have hrank : ∀ type : ValueType, Reads (do
        unless isRank rank do error Code.badMemoryType span s!"invalid rank {rank}"
        return type) fun _ _ => True := by
      intro type
      simp only
      split
      · exact reads_pure_true _
      · exact Reads.never (reads_error _ _ _ _) fun _ => reads_pure_true _
    unfold lowerType
    simp only
    split
    · exact Reads.never (reads_error _ _ _ _) fun _ => hrank _
    · exact hrank _

theorem reads_buildAlloc (type : Source.TypeExpr) (span : Span) :
    Reads (buildAlloc type span) fun _ r =>
      ∃ t : ValueType, t.isMemref = true ∧ r = some ({ kind := .alloc }, [t]) := by
  refine Reads.bind (reads_lowerType type) fun t => ?_
  split
  · next ht => exact (reads_pure _).mono fun c r hr _ => ⟨t, ht, hr⟩
  · exact Reads.never (reads_error _ _ _ _) fun _ => reads_pure_true _

theorem reads_buildTransform (ins outs : List Source.Name) :
    Reads (buildTransform ins outs) fun c r => ∃ vs ws,
      r = some ({ kind := .transform vs.length, operands := vs ++ ws }, []) ∧
        (∀ v ∈ vs, Usable c .any v) ∧ ∀ v ∈ ws, Usable c .any v := by
  refine Reads.bind (reads_resolveAll .any ins) fun _ => ?_
  refine Reads.bind (reads_resolveAll .any outs) fun _ => (reads_pure _).mono ?_
  rintro c _ rfl ⟨ws, rfl, -, hws⟩ ⟨vs, rfl, -, hvs⟩
  exact ⟨vs, ws, rfl, hvs, hws⟩

theorem reads_buildApply (args : List Source.Name) :
    Reads (buildApply args) fun c r => ∃ vs,
      r = some ({ kind := .apply, operands := vs }, [.index]) ∧ ∀ v ∈ vs, Usable c .index v := by
  refine Reads.bind (reads_resolveAll .index args) fun _ => (reads_pure _).mono ?_
  rintro c _ rfl ⟨vs, rfl, -, hvs⟩
  exact ⟨vs, rfl, hvs⟩

theorem reads_buildYield (values : List Source.Name) :
    Reads (buildYield values) fun c r => ∃ vs,
      r = some ({ kind := .yield, operands := vs }, []) ∧ ∀ v ∈ vs, Usable c .any v := by
  refine Reads.bind (reads_resolveAll .any values) fun _ => (reads_pure _).mono ?_
  rintro c _ rfl ⟨vs, rfl, -, hvs⟩
  exact ⟨vs, rfl, hvs⟩

theorem reads_buildJoin (deps : List Source.Name) :
    Reads (buildJoin deps) fun c r => ∃ vs,
      r = some ({ kind := .join, deps := vs }, [.token]) ∧ ∀ v ∈ vs, Usable c .token v := by
  refine Reads.bind (reads_resolveAll .token deps) fun _ => (reads_pure _).mono ?_
  rintro c _ rfl ⟨vs, rfl, -, hvs⟩
  exact ⟨vs, rfl, hvs⟩

theorem reads_buildTransfer (deps : List Source.Name) (dst src : Source.Access) :
    Reads (buildTransfer deps dst src) fun c r => ∃ ds d s atDst atSrc,
      r = some ({ kind := .transfer atDst.length, operands := d :: s :: atDst ++ atSrc, deps := ds },
        [.token]) ∧ (∀ v ∈ ds, Usable c .token v) ∧ UsableAccess c d atDst ∧
        UsableAccess c s atSrc := by
  refine Reads.bind (reads_resolveAll .token deps) fun _ => ?_
  refine Reads.bind (reads_resolveAccess dst) fun _ => ?_
  refine Reads.bind (reads_resolveAccess src) fun _ => (reads_pure _).mono ?_
  rintro c _ rfl ⟨s, atSrc, rfl, hs⟩ ⟨d, atDst, rfl, hd⟩ ⟨ds, rfl, -, hds⟩
  exact ⟨ds, d, s, atDst, atSrc, rfl, hds, hd, hs⟩

theorem reads_buildChannel (kind : OpKind) (deps : List Source.Name) (buffer : Source.Access) :
    Reads (buildChannel kind deps buffer) fun c r => ∃ ds base offsets,
      r = some ({ kind, operands := base :: offsets, deps := ds }, [.token]) ∧
        (∀ v ∈ ds, Usable c .token v) ∧ UsableAccess c base offsets := by
  refine Reads.bind (reads_resolveAll .token deps) fun _ => ?_
  refine Reads.bind (reads_resolveAccess buffer) fun _ => (reads_pure _).mono ?_
  rintro c _ rfl ⟨base, offsets, rfl, hb⟩ ⟨ds, rfl, -, hds⟩
  exact ⟨ds, base, offsets, rfl, hds, hb⟩

/-! ## Operands that precede a body -/

theorem reads_yieldedTypes (b : BlockId) :
    Reads (yieldedTypes b) fun c types => types = (c.program.signature b).yields := by
  refine Reads.bind reads_get fun s => ?_
  simp only
  split
  · next y hy =>
    refine (reads_pure _).mono fun c r hr hs => ?_
    rw [Program.signature, ← hs.program, hy, Option.map_some, Option.getD_some, hr]
  · next hy =>
    refine (reads_pure _).mono fun c r hr hs => ?_
    rw [Program.signature, ← hs.program, hy, Option.map_none, Option.getD_none, hr]

theorem reads_loopOperands (var lower upper step : Source.Name) (carried : List Source.Binding) :
    Reads (loopOperands var lower upper step carried) fun c r => ∃ bounds inits args,
      r = some (bounds ++ inits, args) ∧ bounds.length = 3 ∧ (∀ v ∈ bounds, Usable c .index v) ∧
        (∀ v ∈ inits, Usable c .any v) ∧
        args.map (·.2) = .index :: inits.map c.program.valueType := by
  refine Reads.bind (reads_resolveAll .index [lower, upper, step]) fun _ => ?_
  refine Reads.bind (reads_resolveAll .any _) fun _ => ?_
  refine Reads.bind reads_get fun s => (reads_pure _).mono ?_
  rintro c _ rfl hs ⟨inits, rfl, hlen, hinits⟩ ⟨bounds, rfl, hthree, hbounds⟩
  refine ⟨bounds, inits, _, rfl, hthree, hbounds, hinits, ?_⟩
  rw [List.map_cons, List.map_snd_zip, hs.program]
  rw [List.length_map] at hlen
  simp [hlen]

theorem reads_refuseToken (binding : Source.Binding) (v : ValueId) :
    Reads (refuseToken binding v) fun c r => r = false ∧ c.program.valueType v ≠ .token := by
  refine Reads.bind reads_get fun s => ?_
  split
  · exact Reads.never (reads_report rfl _) fun _ => reads_pure_true _
  · next htoken =>
    refine (reads_pure _).mono fun c r hr hs => ⟨hr, fun htype => htoken ?_⟩
    rw [hs.program, htype]
    rfl

theorem reads_refuseTokens (pairs : List (Source.Binding × ValueId)) :
    Reads (refuseTokens pairs) fun c r =>
      r = false ∧ ∀ e ∈ pairs, c.program.valueType e.2 ≠ .token := by
  induction pairs with
  | nil =>
    refine (reads_pure _).mono fun c r hr => ⟨hr, ?_⟩
    exact fun e he => absurd he List.not_mem_nil
  | cons e pairs ih =>
    obtain ⟨binding, v⟩ := e
    refine Reads.bind (reads_refuseToken binding v) fun refused => ?_
    refine Reads.bind ih fun others => (reads_pure _).mono ?_
    rintro c _ rfl ⟨rfl, hothers⟩ ⟨rfl, hrefused⟩
    exact ⟨rfl, List.forall_mem_cons.2 ⟨hrefused, hothers⟩⟩

theorem reads_hierarchyOperands (deps ids : List Source.Name) (args : List Source.Binding) :
    Reads (hierarchyOperands deps ids args) fun c r => ∃ ds vs params,
      r = some (ds, vs, params) ∧ (∀ v ∈ ds, Usable c .token v) ∧ (∀ v ∈ vs, Usable c .any v) ∧
        (∀ v ∈ vs, c.program.valueType v ≠ .token) ∧
        params.map (·.2) =
          List.replicate ids.length .index ++ vs.map c.program.valueType := by
  refine Reads.bind (reads_resolveAll .token deps) fun _ => ?_
  refine Reads.bind (reads_resolveAll .any _) fun _ => ?_
  split
  · next ds vs =>
    refine Reads.bind (reads_refuseTokens _) fun refused => ?_
    split
    · next href =>
      refine (reads_pure _).mono ?_
      rintro c r - ⟨rfl, -⟩
      exact absurd href Bool.false_ne_true
    · refine Reads.bind reads_get fun s => (reads_pure _).mono ?_
      rintro c _ rfl hs ⟨-, hrefused⟩ ⟨_, ⟨⟩, hlen, hvs⟩ ⟨_, ⟨⟩, -, hds⟩
      rw [List.length_map] at hlen
      refine ⟨ds, vs, _, rfl, hds, hvs, ?_, ?_⟩
      · intro v hv
        obtain ⟨i, hi, rfl⟩ := List.mem_iff_getElem.1 hv
        have hi : i < args.length := by omega
        refine hrefused (args[i], vs[i]) ?_
        exact List.mem_iff_getElem.2 ⟨i, by simp; omega, by simp⟩
      · rw [List.map_append, List.map_map, List.map_snd_zip, hs.program]
        · congr 1
          exact List.map_const'
        · simp [hlen]
  · next hnot =>
    refine (reads_pure _).mono ?_
    rintro c r - ⟨vs, hvs, -⟩ ⟨ds, hds, -⟩
    exact absurd hvs (hnot ds vs hds)

end AsyncOrder.Lowering
