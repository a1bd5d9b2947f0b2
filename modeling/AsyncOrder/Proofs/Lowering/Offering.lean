import AsyncOrder.Proofs.Lowering.Telling

/-!
# What operations offer

An operation makes known the types of its results, and what its body yields if it is a loop, or
what it hands over if it is a terminator.  Lowering it tells just what it may offer as its text is
typed (`tells_flat`), bodies apart.
-/

namespace AsyncOrder

/-- The types that an operation makes known to what is around it. -/
structure Offer where
  results : List ValueType
  /-- What the body of a loop yields. -/
  looped : Option (List ValueType)
  /-- What a terminator hands over. -/
  handed : Option (List ValueType)

/-- What the body of a loop yields may be yielded. -/
def Offer.Allowed (carry : Source.Carry) (e : Offer) : Prop := ∀ ys ∈ e.looped, carry e.results ys

@[simp]
theorem Offer.allowed_some {carry : Source.Carry} {ts ys : List ValueType}
    {handed : Option (List ValueType)} :
    Offer.Allowed carry ⟨ts, some ys, handed⟩ ↔ carry ts ys := by
  simp [Offer.Allowed]

@[simp]
theorem Offer.allowed_none (carry : Source.Carry) (ts : List ValueType)
    (handed : Option (List ValueType)) : Offer.Allowed carry ⟨ts, none, handed⟩ := by
  simp [Offer.Allowed]

/-- No loop and no terminator. -/
abbrev Offer.plain (results : List ValueType) : Offer := ⟨results, none, none⟩

def OpSpec.offer (p : Program) (spec : OpSpec) (results : List ValueType) : Offer :=
  match spec.kind with
  | .yield | .finish => ⟨results, none, some (spec.operands.map p.valueType)⟩
  | .loop _ => ⟨results, spec.regions.head?.map fun b => (p.signature b).yields, none⟩
  | _ => .plain results

/-- The operation has no body. -/
def Source.Op.isFlat : Source.Op → Bool
  | .compute .. | .loop .. | .branch .. | .hierarchy .. => false
  | _ => true

open Source in
/-- What an operation offers that is typed, but for what it yields if it is a loop. -/
def Source.Op.Offers (carry : Carry) (Γ : Context) (op : Op) (e : Offer) : Prop :=
  match op with
  | .yield values => ∃ ts, List.Forall₂ (Γ.Gives .any) values ts ∧ e = ⟨[], none, some ts⟩
  | .finish => e = ⟨[], none, some []⟩
  | .loop _ var lower upper step carried (.mk stmts _) => ∃ ts ys,
      (∀ a ∈ [lower, upper, step], Γ.Gives .index a .index) ∧
      List.Forall₂ (Γ.Gives .any) (carried.map (·.outer)) ts ∧
      (Scope.ofArgs false (var :: carried.map (·.inner)) (.index :: ts)).Distinct ∧
      BlockTyped carry .loop (.ofArgs false (var :: carried.map (·.inner)) (.index :: ts)) Γ stmts
        (some ys) ∧
      e = ⟨ts, some ys, none⟩
  | op => ∃ ts, OpTyped carry Γ op ts ∧ e = .plain ts

namespace Lowering

/-! ## Operations without bodies -/

/-- What `buildOp` returns is on offer. -/
def Offered (p : Program) (e : Offer) (r : Built) : Prop :=
  ∃ spec types, r = some (spec, types) ∧ spec.offer p types = e

section Leaf

variable {c : Construction}

theorem tells_buildUnary {kind : OpKind}
    (hkind : ∀ vs ts, OpSpec.offer c.program { kind, operands := vs } ts = .plain ts)
    (demand : Demand) (a : Source.Name) :
    Tells c (buildUnary kind demand a) (fun e => (∃ t, c.context.Gives demand a t) ∧ e = .plain [])
      (Offered c.program) := by
  refine (tells_resolve demand a).forget.map (fun _ => .plain []) ?_ fun _ => by simp
  rintro - _ ⟨t, v, rfl, -⟩
  exact ⟨_, _, rfl, hkind [v] []⟩

theorem tells_buildBinary {kind : OpKind}
    (hkind : ∀ vs ts, OpSpec.offer c.program { kind, operands := vs } ts = .plain ts)
    (demand : Demand) (types : List ValueType) (a b : Source.Name) :
    Tells c (buildBinary kind demand types a b)
      (fun e => ((∃ s, c.context.Gives demand a s) ∧ ∃ t, c.context.Gives demand b t) ∧
        e = .plain types)
      (Offered c.program) := by
  refine (tells_resolveAll demand [a, b]).forget.map (fun _ => .plain types) ?_ fun _ => ?_
  · rintro - _ ⟨ts, vs, rfl, -⟩
    exact ⟨_, _, rfl, hkind vs types⟩
  · rw [exists_forall₂_iff]
    simp

theorem tells_buildAlloc (type : Source.TypeExpr) (span : Span) :
    Tells c (buildAlloc type span)
      (fun e => ∃ t, type.Denotes t ∧ t.isMemref = true ∧ e = .plain [t]) (Offered c.program) := by
  refine (tells_lowerType type).bind (fun t => ?_)
    (fun t e => t.isMemref = true ∧ e = .plain [t]) ?_ fun _ => Iff.rfl
  · split
    · exact (reads_pure _).honest
    · exact Honest.bind (reads_error _ _ _ fun _ _ => True).honest fun _ => (reads_pure _).honest
  · rintro t _ rfl
    split
    · next h => exact (Tells.pure ⟨_, _, rfl, rfl⟩).congr fun e => and_iff_right h
    · next h =>
      exact .never (Reads.never (reads_error _ _ _ _) fun _ => reads_pure_true _)
        fun e he => h he.1

theorem tells_buildTransform (ins outs : List Source.Name) :
    Tells c (buildTransform ins outs)
      (fun e => (∀ a ∈ ins ++ outs, ∃ t, c.context.Gives .any a t) ∧ e = .plain [])
      (Offered c.program) := by
  refine (tells_resolveAll .any ins).forget.bind (fun _ => ?_)
    (fun _ e => (∀ a ∈ outs, ∃ t, c.context.Gives .any a t) ∧ e = .plain []) ?_ fun _ => ?_
  · exact Honest.bind (reads_resolveAll .any outs).honest fun _ => (reads_pure _).honest
  · rintro - _ ⟨ts, vs, rfl, -⟩
    refine (tells_resolveAll .any outs).forget.map (fun _ => .plain []) ?_ fun _ => ?_
    · rintro - _ ⟨us, ws, rfl, -⟩
      exact ⟨_, _, rfl, rfl⟩
    · rw [exists_forall₂_iff]
      simp
  · rw [exists_forall₂_iff, List.forall_mem_append]
    simp [and_assoc]

theorem tells_buildApply (args : List Source.Name) :
    Tells c (buildApply args)
      (fun e => (∀ a ∈ args, c.context.Gives .index a .index) ∧ e = .plain [.index])
      (Offered c.program) := by
  refine (tells_index args).map (fun _ => .plain [.index]) ?_ fun _ => by simp
  rintro - _ ⟨vs, rfl, -⟩
  exact ⟨_, _, rfl, rfl⟩

theorem tells_buildYield (values : List Source.Name) :
    Tells c (buildYield values)
      (fun e => ∃ ts, List.Forall₂ (c.context.Gives .any) values ts ∧ e = ⟨[], none, some ts⟩)
      (Offered c.program) := by
  refine (tells_resolveAll .any values).map (fun ts => ⟨[], none, some ts⟩) ?_ fun _ => Iff.rfl
  rintro ts _ ⟨vs, rfl, rfl⟩
  exact ⟨_, _, rfl, rfl⟩

theorem tells_buildJoin (deps : List Source.Name) :
    Tells c (buildJoin deps)
      (fun e => (∀ d ∈ deps, c.context.Gives .token d .token) ∧ e = .plain [.token])
      (Offered c.program) := by
  refine (tells_token deps).map (fun _ => .plain [.token]) ?_ fun _ => by simp
  rintro - _ ⟨vs, rfl, -⟩
  exact ⟨_, _, rfl, rfl⟩

theorem tells_buildTransfer (deps : List Source.Name) (dst src : Source.Access) :
    Tells c (buildTransfer deps dst src)
      (fun e => ((∀ d ∈ deps, c.context.Gives .token d .token) ∧ c.context.Reaches dst ∧
        c.context.Reaches src) ∧ e = .plain [.token]) (Offered c.program) := by
  refine (tells_token deps).bind (fun _ => ?_)
    (fun _ e => (c.context.Reaches dst ∧ c.context.Reaches src) ∧ e = .plain [.token]) ?_
    fun _ => by simp [and_assoc]
  · refine Honest.bind (reads_resolveAccess dst).honest fun _ => ?_
    exact Honest.bind (reads_resolveAccess src).honest fun _ => (reads_pure _).honest
  rintro - _ ⟨ds, rfl, -⟩
  refine (tells_resolveAccess dst).bind (fun _ => ?_)
    (fun _ e => c.context.Reaches src ∧ e = .plain [.token]) ?_ fun _ => by simp [and_assoc]
  · exact Honest.bind (reads_resolveAccess src).honest fun _ => (reads_pure _).honest
  rintro - _ ⟨d, atDst, rfl⟩
  refine (tells_resolveAccess src).map (fun _ => .plain [.token]) ?_ fun _ => by simp
  rintro - _ ⟨s, atSrc, rfl⟩
  exact ⟨_, _, rfl, rfl⟩

theorem tells_buildChannel {kind : OpKind}
    (hkind : ∀ vs deps ts, OpSpec.offer c.program { kind, operands := vs, deps } ts = .plain ts)
    (deps : List Source.Name) (buffer : Source.Access) :
    Tells c (buildChannel kind deps buffer)
      (fun e => ((∀ d ∈ deps, c.context.Gives .token d .token) ∧ c.context.Reaches buffer) ∧
        e = .plain [.token]) (Offered c.program) := by
  refine (tells_token deps).bind (fun _ => ?_)
    (fun _ e => c.context.Reaches buffer ∧ e = .plain [.token]) ?_ fun _ => by simp [and_assoc]
  · exact Honest.bind (reads_resolveAccess buffer).honest fun _ => (reads_pure _).honest
  rintro - _ ⟨ds, rfl, -⟩
  refine (tells_resolveAccess buffer).map (fun _ => .plain [.token]) ?_ fun _ => by simp
  rintro - _ ⟨base, offsets, rfl⟩
  exact ⟨_, _, rfl, hkind (base :: offsets) ds [.token]⟩

theorem gives_index_of_exists {a : Source.Name} (h : ∃ t, c.context.Gives .index a t) :
    c.context.Gives .index a .index := by
  obtain ⟨t, ht⟩ := h
  have : t = .index := by simpa [Demand.accepts] using ht.2
  exact this ▸ ht

/-- Lowering an operation without body tells what it offers. -/
theorem tells_flat (carry : Source.Carry) (span : Span) (op : Source.Op)
    (hflat : op.isFlat = true) :
    Tells c (buildOp span op) (op.Offers carry c.context) (Offered c.program) := by
  cases op
  case compute => exact absurd hflat Bool.false_ne_true
  case loop => exact absurd hflat Bool.false_ne_true
  case branch => exact absurd hflat Bool.false_ne_true
  case hierarchy => exact absurd hflat Bool.false_ne_true
  all_goals rw [buildOp]
  case yield values => exact (tells_buildYield values).congr fun e => Iff.rfl
  case finish => exact Tells.pure ⟨_, _, rfl, rfl⟩
  case const n =>
    refine (Tells.pure (b := .plain [.index]) ⟨_, _, rfl, rfl⟩).congr fun e => ⟨?_, ?_⟩
    · rintro ⟨_, h, rfl⟩
      cases h
      rfl
    · rintro rfl
      exact ⟨_, .const n, rfl⟩
  case alloc type =>
    refine (tells_buildAlloc type span).congr fun e => ⟨?_, ?_⟩
    · rintro ⟨_, h, rfl⟩
      cases h with
      | alloc htype hmemref => exact ⟨_, htype, hmemref, rfl⟩
    · rintro ⟨t, htype, hmemref, rfl⟩
      exact ⟨_, .alloc htype hmemref, rfl⟩
  case dealloc a =>
    refine (tells_buildUnary (fun _ _ => rfl) .memref a).congr fun e => ⟨?_, ?_⟩
    · rintro ⟨_, h, rfl⟩
      cases h with
      | dealloc ha => exact ⟨⟨_, ha⟩, rfl⟩
    · rintro ⟨⟨t, ha⟩, rfl⟩
      exact ⟨_, .dealloc ha, rfl⟩
  case copy a b =>
    refine (tells_buildBinary (fun _ _ => rfl) .memref [] a b).congr fun e => ⟨?_, ?_⟩
    · rintro ⟨_, h, rfl⟩
      cases h with
      | copy ha hb => exact ⟨⟨⟨_, ha⟩, _, hb⟩, rfl⟩
    · rintro ⟨⟨⟨s, ha⟩, t, hb⟩, rfl⟩
      exact ⟨_, .copy ha hb, rfl⟩
  case transform ins outs =>
    refine (tells_buildTransform ins outs).congr fun e => ⟨?_, ?_⟩
    · rintro ⟨_, h, rfl⟩
      cases h with
      | transform hall => exact ⟨hall, rfl⟩
    · rintro ⟨hall, rfl⟩
      exact ⟨_, .transform hall, rfl⟩
  case muli a b =>
    refine (tells_buildBinary (fun _ _ => rfl) .index [.index] a b).congr fun e => ⟨?_, ?_⟩
    · rintro ⟨_, h, rfl⟩
      cases h with
      | muli ha hb => exact ⟨⟨⟨_, ha⟩, _, hb⟩, rfl⟩
    · rintro ⟨⟨ha, hb⟩, rfl⟩
      exact ⟨_, .muli (gives_index_of_exists ha) (gives_index_of_exists hb), rfl⟩
  case addi a b =>
    refine (tells_buildBinary (fun _ _ => rfl) .index [.index] a b).congr fun e => ⟨?_, ?_⟩
    · rintro ⟨_, h, rfl⟩
      cases h with
      | addi ha hb => exact ⟨⟨⟨_, ha⟩, _, hb⟩, rfl⟩
    · rintro ⟨⟨ha, hb⟩, rfl⟩
      exact ⟨_, .addi (gives_index_of_exists ha) (gives_index_of_exists hb), rfl⟩
  case apply args =>
    refine (tells_buildApply args).congr fun e => ⟨?_, ?_⟩
    · rintro ⟨_, h, rfl⟩
      cases h with
      | apply hall => exact ⟨hall, rfl⟩
    · rintro ⟨hall, rfl⟩
      exact ⟨_, .apply hall, rfl⟩
  case join deps =>
    refine (tells_buildJoin deps).congr fun e => ⟨?_, ?_⟩
    · rintro ⟨_, h, rfl⟩
      cases h with
      | join hdeps => exact ⟨hdeps, rfl⟩
    · rintro ⟨hdeps, rfl⟩
      exact ⟨_, .join hdeps, rfl⟩
  case transfer deps dst src =>
    refine (tells_buildTransfer deps dst src).congr fun e => ⟨?_, ?_⟩
    · rintro ⟨_, h, rfl⟩
      cases h with
      | transfer hdeps hdst hsrc => exact ⟨⟨hdeps, hdst, hsrc⟩, rfl⟩
    · rintro ⟨⟨hdeps, hdst, hsrc⟩, rfl⟩
      exact ⟨_, .transfer hdeps hdst hsrc, rfl⟩
  case put channel deps src =>
    refine (tells_buildChannel (fun _ _ _ => rfl) deps src).congr fun e => ⟨?_, ?_⟩
    · rintro ⟨_, h, rfl⟩
      cases h with
      | put hdeps hsrc => exact ⟨⟨hdeps, hsrc⟩, rfl⟩
    · rintro ⟨⟨hdeps, hsrc⟩, rfl⟩
      exact ⟨_, .put hdeps hsrc, rfl⟩
  case get channel deps dst =>
    refine (tells_buildChannel (fun _ _ _ => rfl) deps dst).congr fun e => ⟨?_, ?_⟩
    · rintro ⟨_, h, rfl⟩
      cases h with
      | get hdeps hdst => exact ⟨⟨hdeps, hdst⟩, rfl⟩
    · rintro ⟨⟨hdeps, hdst⟩, rfl⟩
      exact ⟨_, .get hdeps hdst, rfl⟩

end Leaf

/-! ## What is around bodies -/

section Operands

variable {c : Construction}

theorem tells_yieldedTypes (b : BlockId) :
    Tells c (yieldedTypes b) (fun _ : Unit => True)
      fun _ types => types = (c.program.signature b).yields := by
  refine Tells.get fun s hmatch => ?_
  rw [hmatch.program]
  simp only
  split
  · next y hy =>
    refine (Tells.pure (b := ()) ?_).congr fun _ => iff_of_true trivial rfl
    rw [Program.signature, hy]
    rfl
  · next hy =>
    refine (Tells.pure (b := ()) ?_).congr fun _ => iff_of_true trivial rfl
    rw [Program.signature, hy]
    rfl

theorem tells_loopOperands (var lower upper step : Source.Name) (carried : List Source.Binding) :
    Tells c (loopOperands var lower upper step carried)
      (fun ts => (∀ a ∈ [lower, upper, step], c.context.Gives .index a .index) ∧
        List.Forall₂ (c.context.Gives .any) (carried.map (·.outer)) ts)
      fun ts r => ∃ operands args, r = some (operands, args) ∧
        args.map (·.1) = var :: carried.map (·.inner) ∧ args.map (·.2) = .index :: ts := by
  refine (tells_index _).bind (fun _ => ?_)
    (fun _ ts => List.Forall₂ (c.context.Gives .any) (carried.map (·.outer)) ts) ?_ fun _ => by simp
  · refine Honest.bind (reads_resolveAll _ _).honest fun _ => ?_
    exact Honest.bind reads_get.honest fun _ => (reads_pure _).honest
  rintro - _ ⟨bounds, rfl, -⟩
  refine (tells_resolveAll .any _).holds.bind (fun _ => ?_) (fun ts us => us = ts) ?_
    fun _ => by simp
  · exact Honest.bind reads_get.honest fun _ => (reads_pure _).honest
  rintro _ _ ⟨⟨inits, rfl, rfl⟩, hall⟩
  have hlen : (carried.map (·.inner)).length = inits.length := by
    rw [List.length_map, ← List.length_map (·.outer), hall.length_eq, List.length_map]
  refine Tells.get fun s hmatch => Tells.pure ⟨_, _, rfl, ?_, ?_⟩
  · rw [List.map_cons, List.map_fst_zip (by simp [hlen])]
  · rw [List.map_cons, List.map_snd_zip (by simp [hlen]), hmatch.program]

theorem tells_refuseToken (binding : Source.Binding) (v : ValueId) :
    Tells c (refuseToken binding v) (fun _ : Unit => c.program.valueType v ≠ .token)
      fun _ r => r = false := by
  refine Tells.get fun s hmatch => ?_
  rw [hmatch.program]
  split
  · next h =>
    refine .never (Reads.never (reads_report rfl _) fun _ => reads_pure_true _) fun _ hne => ?_
    exact hne (ValueType.isToken_iff.1 h)
  · next h =>
    refine (Tells.pure (b := ()) (R := fun _ r => r = false) rfl).congr fun _ => ?_
    exact iff_of_true (fun htype => h (ValueType.isToken_iff.2 htype)) rfl

theorem tells_refuseTokens (pairs : List (Source.Binding × ValueId)) :
    Tells c (refuseTokens pairs) (fun _ : Unit => ∀ e ∈ pairs, c.program.valueType e.2 ≠ .token)
      fun _ r => r = false := by
  induction pairs with
  | nil =>
    refine (Tells.pure (b := ()) (R := fun _ r => r = false) rfl).congr fun _ => ?_
    exact iff_of_true (fun e he => absurd he List.not_mem_nil) rfl
  | cons e pairs ih =>
    obtain ⟨binding, v⟩ := e
    refine (tells_refuseToken binding v).bind (fun _ => ?_)
      (fun _ _ => ∀ e ∈ pairs, c.program.valueType e.2 ≠ .token) ?_ fun _ => ?_
    · exact Honest.bind (reads_refuseTokens pairs).honest fun _ => (reads_pure _).honest
    · rintro - _ rfl
      refine ih.map (fun _ => ()) ?_ fun _ => by simp
      rintro - _ rfl
      rfl
    · rw [List.forall_mem_cons]
      simp

/-- The check that follows when dependencies and arguments of a call have been looked up. -/
def checkArgs (ids : List Source.Name) (args : List Source.Binding)
    (deps operands : Option (List ValueId)) :
    Lower (Option (List ValueId × List ValueId × List (Source.Name × ValueType))) := do
  match deps, operands with
  | some deps, some operands =>
    if ← refuseTokens (args.zip operands) then return none
    else
      let p := (← get).program
      let params := (args.map (·.inner)).zip (operands.map p.valueType)
      return some (deps, operands, ids.map (·, .index) ++ params)
  | _, _ => return none

theorem hierarchyOperands_eq (deps ids : List Source.Name) (args : List Source.Binding) :
    hierarchyOperands deps ids args = resolveAll .token deps >>= fun deps =>
      resolveAll .any (args.map (·.outer)) >>= checkArgs ids args deps := rfl

theorem honest_checkArgs (ids : List Source.Name) (args : List Source.Binding)
    (deps operands : Option (List ValueId)) : Honest (checkArgs ids args deps operands) := by
  unfold checkArgs
  split
  · refine Honest.bind (reads_refuseTokens _).honest fun refused => ?_
    split
    · exact (reads_pure _).honest
    · exact Honest.bind reads_get.honest fun _ => (reads_pure _).honest
  · exact (reads_pure _).honest

theorem tells_hierarchyOperands (deps ids : List Source.Name) (args : List Source.Binding) :
    Tells c (hierarchyOperands deps ids args)
      (fun ts => (∀ d ∈ deps, c.context.Gives .token d .token) ∧
        List.Forall₂ (c.context.Gives .any) (args.map (·.outer)) ts ∧ .token ∉ ts)
      fun ts r => ∃ ds vs params, r = some (ds, vs, params) ∧
        params.map (·.1) = ids ++ args.map (·.inner) ∧
        params.map (·.2) = List.replicate ids.length .index ++ ts := by
  rw [hierarchyOperands_eq]
  refine (tells_token deps).bind (fun _ => ?_)
    (fun _ ts => List.Forall₂ (c.context.Gives .any) (args.map (·.outer)) ts ∧ .token ∉ ts) ?_
    fun _ => by simp
  · exact Honest.bind (reads_resolveAll _ _).honest (honest_checkArgs ids args _)
  rintro - _ ⟨ds, rfl, -⟩
  refine (tells_resolveAll .any _).holds.bind (honest_checkArgs ids args _)
    (fun ts us => .token ∉ ts ∧ us = ts) ?_ fun us => ?_
  · rintro _ _ ⟨⟨vs, rfl, rfl⟩, hall⟩
    have hlen : args.length = vs.length := by
      rw [← List.length_map (·.outer), hall.length_eq, List.length_map]
    refine (tells_refuseTokens (args.zip vs)).bind (fun refused => ?_)
      (fun _ us => us = vs.map c.program.valueType) ?_ fun us => ?_
    · split
      · exact (reads_pure _).honest
      · exact Honest.bind reads_get.honest fun _ => (reads_pure _).honest
    · rintro - _ rfl
      refine Tells.get fun s hmatch => Tells.pure ⟨ds, vs, _, rfl, ?_, ?_⟩
      · rw [List.map_append, List.map_map, List.map_fst_zip (by simp [hlen])]
        exact congrArg (· ++ _) (List.map_id' ids)
      · rw [List.map_append, List.map_map, List.map_snd_zip (by simp [hlen]), hmatch.program]
        exact congrArg (· ++ _) List.map_const'
    · have hzip : (∀ e ∈ args.zip vs, c.program.valueType e.2 ≠ .token) ↔
          ∀ v ∈ vs, c.program.valueType v ≠ .token := by
        conv_rhs => rw [← List.map_snd_zip (Nat.le_of_eq hlen.symm), List.forall_mem_map]
      rw [hzip]
      simp
  · simp

theorem tells_joinBranches (span : Span) (cond : ValueId) (b b' : BlockId) :
    Tells c (joinBranches span cond b b')
      (fun e => (c.program.signature b).yields = (c.program.signature b').yields ∧
        e = .plain (c.program.signature b).yields) (Offered c.program) := by
  have hhonest : ∀ types types' : List ValueType, Honest (do
      if types = types' then
        return some (({ kind := .branch, operands := [cond], regions := [b, b'] } : OpSpec), types)
      else
        error Code.typeMismatch span "branches of 'if' yield different types"
        return none) := by
    intro types types'
    split
    · exact (reads_pure _).honest
    · exact Honest.bind (reads_error _ _ _ fun _ _ => True).honest fun _ => (reads_pure _).honest
  refine (tells_yieldedTypes b).bind (fun types => ?_)
    (fun _ e => (c.program.signature b).yields = (c.program.signature b').yields ∧
        e = .plain (c.program.signature b).yields) ?_ fun _ => by simp
  · exact Honest.bind (reads_yieldedTypes b').honest (hhonest types)
  rintro - _ rfl
  refine (tells_yieldedTypes b').bind (hhonest _)
    (fun _ e => (c.program.signature b).yields = (c.program.signature b').yields ∧
        e = .plain (c.program.signature b).yields) ?_ fun _ => by simp
  rintro - _ rfl
  split
  · next heq => exact (Tells.pure ⟨_, _, rfl, rfl⟩).congr fun e => and_iff_right heq
  · next hne =>
    exact .never (Reads.never (reads_error _ _ _ _) fun _ => reads_pure_true _)
      fun e he => hne he.1

end Operands

end Lowering

end AsyncOrder
