import AsyncOrder.Proofs.Lowering.Reading
import AsyncOrder.Proofs.Source.Validity

/-!
# What is lowered can be spelled

The names, numbers and channels of a program come from the text it was lowered from.  No run of the
lowering brings in others, whether it objects or not:

    Keeps m R    m leaves a spelled program spelled, and returns some a with R a
-/

namespace AsyncOrder

/-- A buffer type has a rank of 32 bits. -/
def ValueType.Small (t : ValueType) : Prop :=
  ∀ (rank : Nat) space, t = .memref rank space → Lowering.isRank rank = true

/-- The number or the channel of an operation can be spelled. -/
structure OpKind.Valid (k : OpKind) : Prop where
  number : ∀ n, k = .const n → isInt64 n = true
  channel : ∀ c, k.channel? = some c → (Token.symbol c).Valid

/-- Name and type of a value can be spelled. -/
structure ValidValue (name : Option String) (type : ValueType) : Prop where
  name : ∀ n, name = some n → (Token.value n).Valid
  type : type.Small

namespace Program

structure Spelt (p : Program) : Prop where
  values : ∀ v, ValidValue (p.value v).name (p.value v).type
  kinds : ∀ o, (p.kind o).Valid
  funcs : ∀ f ∈ p.funcs, (Token.symbol f.name).Valid

variable {p : Program} {specs : List (Option String × ValueType)}

/-- Names and types of new values. -/
def ValidValues (specs : List (Option String × ValueType)) : Prop :=
  ∀ e ∈ specs, ValidValue e.1 e.2

theorem spelt_empty : Program.empty.Spelt where
  values _ := ⟨nofun, nofun⟩
  kinds _ := ⟨nofun, nofun⟩
  funcs _ hf := absurd hf List.not_mem_nil

theorem value_addValues_cases (origin : Nat → Origin) (specs : List (Option String × ValueType))
    (v : ValueId) : (p.addValues origin specs).2.value v = p.value v ∨
      ∃ i, ∃ e ∈ specs, (p.addValues origin specs).2.value v = ⟨e.2, origin i, e.1⟩ := by
  obtain ⟨j⟩ := v
  by_cases hj : j < p.values.size
  · exact Or.inl (value_addValues_of_lt p origin specs hj)
  obtain ⟨i, rfl⟩ : ∃ i, j = p.values.size + i := ⟨j - p.values.size, by omega⟩
  cases hi : specs[i]? with
  | some e =>
    exact Or.inr ⟨i, e, List.mem_of_getElem? hi, value_addValues_add p origin specs hi⟩
  | none =>
    have hlen := List.getElem?_eq_none_iff.1 hi
    refine Or.inl ?_
    rw [value, value, Array.getElem?_eq_none (by simp; omega), Array.getElem?_eq_none (by simp)]

theorem Spelt.addBlock (hp : p.Spelt) (hargs : ValidValues specs) :
    (p.addBlock specs).2.Spelt where
  values v := by
    rw [value_addBlock]
    rcases value_addValues_cases (p := p) (.arg ⟨p.blocks.size⟩) specs v with h | ⟨i, e, he, h⟩
    · rw [h]
      exact hp.values v
    · rw [h]
      exact hargs e he
  kinds := hp.kinds
  funcs := hp.funcs

theorem Spelt.addFunc (hp : p.Spelt) (hargs : ValidValues specs) {name : String}
    (hname : (Token.symbol name).Valid) : (p.addFunc name specs).2.Spelt where
  values := (hp.addBlock hargs).values
  kinds := hp.kinds
  funcs := by
    rw [funcs_addFunc]
    exact List.forall_mem_append.2 ⟨hp.funcs, List.forall_mem_singleton.2 hname⟩

theorem Spelt.appendOp (hp : p.Spelt) {spec : OpSpec} (hkind : spec.kind.Valid)
    (hresults : ValidValues spec.results) (b : BlockId) : (p.appendOp b spec).2.Spelt where
  values v := by
    rw [value_appendOp]
    rcases value_addValues_cases (p := p) (.result ⟨p.ops.size⟩) spec.results v with h | ⟨i, e, he, h⟩
    · rw [h]
      exact hp.values v
    · rw [h]
      exact hresults e he
  kinds o := by
    rw [kind, op_appendOp]
    split
    · exact hkind
    · exact hp.kinds o
  funcs := by
    rw [funcs_appendOp]
    exact hp.funcs

end Program

namespace Lowering

open Source (Spelled)

variable {α β : Type}

def Keeps (m : Lower α) (R : α → Prop) : Prop :=
  ∀ s, s.program.Spelt → (m.run s).2.program.Spelt ∧ R (m.run s).1

variable {m : Lower α} {f : α → Lower β} {R : α → Prop} {S : β → Prop}

theorem keeps_pure {a : α} (h : R a) : Keeps (pure a) R := fun _ hs => ⟨hs, h⟩

theorem Keeps.bind (hm : Keeps m R) (hf : ∀ a, R a → Keeps (f a) S) : Keeps (m >>= f) S :=
  fun s hs => hf _ (hm s hs).2 _ (hm s hs).1

theorem keeps_get {f : State → Lower α} (h : ∀ s, s.program.Spelt → Keeps (f s) R) :
    Keeps (get >>= f) R := fun s hs => h s hs s hs

/-- Frames and diagnostics do not matter. -/
theorem keeps_modify {g : State → State} (h : ∀ s, (g s).program = s.program) :
    Keeps (modify g) fun _ => True := by
  intro s hs
  refine ⟨?_, trivial⟩
  show (g s).program.Spelt
  rw [h s]
  exact hs

theorem keeps_build {step : Program → α × Program}
    (h : ∀ p : Program, p.Spelt → (step p).2.Spelt) : Keeps (build step) fun _ => True :=
  fun s hs => ⟨h s.program hs, trivial⟩

theorem keeps_report (d : Diagnostic) : Keeps (report d) fun _ => True := keeps_modify fun _ => rfl

theorem keeps_error (code : String) (span : Span) (message : String) :
    Keeps (error code span message) fun _ => True := keeps_report _

/-! ## Names and types -/

theorem keeps_define (name : Source.Name) (v : ValueId) :
    Keeps (define name v) fun _ => True := by
  refine keeps_get fun s _ => ?_
  split
  · exact keeps_pure trivial
  · refine Keeps.bind (keeps_modify fun _ => rfl) fun _ _ => ?_
    split
    · exact keeps_error _ _ _
    · exact keeps_pure trivial

theorem keeps_defineAll (names : List Source.Name) (vs : List ValueId) :
    Keeps (defineAll names vs) fun _ => True := by
  unfold defineAll
  induction names.zip vs with
  | nil => exact keeps_pure trivial
  | cons e pairs ih => exact Keeps.bind (keeps_define e.1 e.2) fun _ _ => ih

theorem keeps_resolve (demand : Demand) (name : Source.Name) :
    Keeps (resolve demand name) fun _ => True := by
  refine keeps_get fun s _ => ?_
  split
  · exact Keeps.bind (keeps_error _ _ _) fun _ _ => keeps_pure trivial
  · exact Keeps.bind (keeps_report _) fun _ _ => keeps_pure trivial
  · simp only
    split
    · exact keeps_pure trivial
    · exact Keeps.bind (keeps_error _ _ _) fun _ _ => keeps_pure trivial

theorem keeps_resolveAll (demand : Demand) (names : List Source.Name) :
    Keeps (resolveAll demand names) fun _ => True := by
  induction names with
  | nil => exact keeps_pure trivial
  | cons name names ih =>
    refine Keeps.bind (keeps_resolve demand name) fun _ _ => ?_
    exact Keeps.bind ih fun _ _ => keeps_pure trivial

theorem keeps_resolveAccess (a : Source.Access) : Keeps (resolveAccess a) fun _ => True := by
  refine Keeps.bind (keeps_resolve _ _) fun base _ => ?_
  refine Keeps.bind (keeps_resolveAll _ _) fun offsets _ => ?_
  split
  · refine keeps_get fun s _ => ?_
    split
    · split
      · exact keeps_pure trivial
      · exact Keeps.bind (keeps_error _ _ _) fun _ _ => keeps_pure trivial
    · exact keeps_pure trivial
  · exact keeps_pure trivial

theorem keeps_lowerType (type : Source.TypeExpr) : Keeps (lowerType type) ValueType.Small := by
  cases type with
  | token => exact keeps_pure nofun
  | index => exact keeps_pure nofun
  | memref rank space span =>
    have hrank : Keeps (do
        unless isRank rank do error Code.badMemoryType span s!"invalid rank {rank}"
        return .memref (if isRank rank then rank.toNat else 0)
          ((MemorySpace.ofText? space.text).getD .l3)) ValueType.Small := by
      have hsmall : (ValueType.memref (if isRank rank then rank.toNat else 0)
          ((MemorySpace.ofText? space.text).getD .l3)).Small := by
        rintro _ _ ⟨⟩
        split
        · next h => simp only [isRank, Bool.and_eq_true, decide_eq_true_eq] at h ⊢; omega
        · rfl
      cases hr : isRank rank <;> rw [hr] at hsmall
      · exact Keeps.bind (keeps_error _ _ _) fun _ _ => keeps_pure hsmall
      · exact keeps_pure hsmall
    unfold lowerType
    simp only
    split
    · exact Keeps.bind (keeps_error _ _ _) fun _ _ => hrank
    · exact hrank

/-! ## Operations -/

/-- Names and types of the arguments of a body. -/
def ValidArgs (args : List (Source.Name × ValueType)) : Prop :=
  ∀ a ∈ args, a.1.Valid ∧ a.2.Small

theorem validArgs_nil : ValidArgs [] := fun _ ha => absurd ha List.not_mem_nil

theorem ValidArgs.values {args : List (Source.Name × ValueType)} (h : ValidArgs args) :
    Program.ValidValues (bodyArgs args) := by
  intro e he
  obtain ⟨a, ha, rfl⟩ := List.mem_map.1 he
  refine ⟨?_, (h a ha).2⟩
  rintro _ ⟨⟩
  exact (h a ha).1

theorem validArgs_zip {names : List Source.Name} {types : List ValueType}
    (hnames : ∀ n ∈ names, n.Valid) (htypes : ∀ t ∈ types, t.Small) :
    ValidArgs (names.zip types) :=
  fun a ha => ⟨hnames a.1 (List.of_mem_zip ha).1, htypes a.2 (List.of_mem_zip ha).2⟩

theorem small_valueTypes {p : Program} (hp : p.Spelt) (vs : List ValueId) :
    ∀ t ∈ vs.map p.valueType, t.Small := by
  intro t ht
  obtain ⟨v, -, rfl⟩ := List.mem_map.1 ht
  exact (hp.values v).type

theorem small_index : ValueType.index.Small := nofun

theorem small_token : ValueType.token.Small := nofun

/-- Kind and result types of what is built. -/
def ValidBuilt (r : Built) : Prop := ∀ e, r = some e → e.1.kind.Valid ∧ ∀ t ∈ e.2, t.Small

theorem validBuilt_none : ValidBuilt none := nofun

theorem validBuilt_some {spec : OpSpec} {types : List ValueType} (hkind : spec.kind.Valid)
    (htypes : ∀ t ∈ types, t.Small) : ValidBuilt (some (spec, types)) := by
  rintro _ ⟨⟩
  exact ⟨hkind, htypes⟩

theorem keeps_closeBody (b : BlockId) (region : Region) (span : Span) :
    Keeps (closeBody b region span) fun _ => True := by
  have hadd : ∀ kind : OpKind, kind.Valid → Keeps (do
      let _ ← build (·.appendOp b { kind }); return ()) fun _ => True := by
    intro kind hkind
    refine Keeps.bind (keeps_build fun p hp => ?_) fun _ _ => keeps_pure trivial
    exact hp.appendOp hkind (fun e he => absurd he List.not_mem_nil) b
  refine keeps_get fun s _ => ?_
  split
  · cases region
    case func => exact keeps_pure trivial
    case compute => exact hadd .yield ⟨nofun, nofun⟩
    case hierarchy => exact hadd .finish ⟨nofun, nofun⟩
    case loop => exact keeps_error _ _ _
    case branch => exact keeps_error _ _ _
  · exact keeps_pure trivial

theorem keeps_openSite {step : Program → BlockId × Program}
    (h : ∀ p : Program, p.Spelt → (step p).2.Spelt) (isolated : Bool) (names : List Source.Name) :
    Keeps (openSite step isolated names) fun _ => True := by
  refine Keeps.bind (keeps_build h) fun b _ => ?_
  refine Keeps.bind (keeps_modify fun _ => rfl) fun _ _ => keeps_get fun s _ => ?_
  exact Keeps.bind (keeps_defineAll _ _) fun _ _ => keeps_pure trivial

theorem keeps_inRegion (region : Region) {args : List (Source.Name × ValueType)}
    (hargs : ValidArgs args) (span : Span) {fill : BlockId → Lower Unit}
    (hfill : ∀ b, Keeps (fill b) fun _ => True) :
    Keeps (inRegion region args span fill) fun _ => True := by
  rw [inRegion_eq]
  refine Keeps.bind (keeps_openSite (fun p hp => hp.addBlock hargs.values) _ _) fun b _ => ?_
  refine Keeps.bind (hfill b) fun _ _ => Keeps.bind (keeps_closeBody _ _ _) fun _ _ => ?_
  exact Keeps.bind (keeps_modify fun _ => rfl) fun _ _ => keeps_pure trivial

theorem keeps_yieldedTypes (b : BlockId) :
    Keeps (yieldedTypes b) fun types => ∀ t ∈ types, t.Small := by
  refine keeps_get fun s hs => ?_
  simp only
  split
  · exact keeps_pure (small_valueTypes hs _)
  · exact keeps_pure nofun

theorem keeps_loopOperands {var : Source.Name} (lower upper step : Source.Name)
    {carried : List Source.Binding} (hvar : var.Valid) (hcarried : ∀ b ∈ carried, b.inner.Valid) :
    Keeps (loopOperands var lower upper step carried) fun r => ∀ e, r = some e → ValidArgs e.2 := by
  refine Keeps.bind (keeps_resolveAll _ _) fun bounds _ => ?_
  refine Keeps.bind (keeps_resolveAll _ _) fun inits _ => keeps_get fun s hs => keeps_pure ?_
  cases bounds with
  | none => exact nofun
  | some bounds =>
    cases inits with
    | none => exact nofun
    | some inits =>
      rintro _ ⟨⟩
      refine List.forall_mem_cons.2 ⟨⟨hvar, small_index⟩, ?_⟩
      exact validArgs_zip (List.forall_mem_map.2 hcarried) (small_valueTypes hs inits)

theorem keeps_refuseTokens (pairs : List (Source.Binding × ValueId)) :
    Keeps (refuseTokens pairs) fun _ => True := by
  induction pairs with
  | nil => exact keeps_pure trivial
  | cons e pairs ih =>
    have htoken : Keeps (refuseToken e.1 e.2) fun _ => True := by
      refine keeps_get fun s _ => ?_
      split
      · exact Keeps.bind (keeps_report _) fun _ _ => keeps_pure trivial
      · exact keeps_pure trivial
    exact Keeps.bind htoken fun _ _ => Keeps.bind ih fun _ _ => keeps_pure trivial

theorem keeps_hierarchyOperands (deps : List Source.Name) {ids : List Source.Name}
    {args : List Source.Binding} (hids : ∀ n ∈ ids, n.Valid) (hargs : ∀ b ∈ args, b.inner.Valid) :
    Keeps (hierarchyOperands deps ids args) fun r => ∀ e, r = some e → ValidArgs e.2.2 := by
  refine Keeps.bind (keeps_resolveAll _ _) fun ds _ => ?_
  refine Keeps.bind (keeps_resolveAll _ _) fun vs _ => ?_
  split
  · next ds vs =>
    refine Keeps.bind (keeps_refuseTokens _) fun refused _ => ?_
    split
    · exact keeps_pure nofun
    · refine keeps_get fun s hs => keeps_pure ?_
      rintro _ ⟨⟩
      refine List.forall_mem_append.2 ⟨List.forall_mem_map.2 fun n hn => ?_, ?_⟩
      · exact ⟨hids n hn, small_index⟩
      · exact validArgs_zip (List.forall_mem_map.2 hargs) (small_valueTypes hs vs)
  · exact keeps_pure nofun

theorem keeps_addOp (b : BlockId) {stmt : Source.Stmt} {spec : OpSpec} {types : List ValueType}
    (hnames : ∀ n ∈ stmt.results, n.Valid) (hkind : spec.kind.Valid)
    (htypes : ∀ t ∈ types, t.Small) : Keeps (addOp b stmt spec types) fun _ => True := by
  have hresults : Program.ValidValues ((resultNames stmt types).zip types) := by
    intro e he
    obtain ⟨hname, htype⟩ := List.of_mem_zip he
    refine ⟨fun n hn => ?_, htypes _ htype⟩
    rw [hn, resultNames] at hname
    split at hname
    · obtain ⟨m, hm, heq⟩ := List.mem_map.1 hname
      rw [← Option.some.inj heq]
      exact hnames m hm
    · obtain ⟨_, _, heq⟩ := List.mem_map.1 hname
      cases heq
  have hadd : Keeps (addNamed b stmt.results (stmt.results.length = types.length)
      { spec with results := (resultNames stmt types).zip types, span := stmt.span })
      fun _ => True := by
    refine Keeps.bind (keeps_build fun p hp => ?_) fun op _ => ?_
    · refine hp.appendOp ?_ ?_ b
      · exact hkind
      · exact hresults
    split
    · exact keeps_get fun _ _ => keeps_defineAll _ _
    · exact keeps_pure trivial
  obtain ⟨message, heq⟩ := addOp_eq b stmt spec types
  rw [heq]
  split
  · exact hadd
  · exact Keeps.bind (keeps_error _ _ _) fun _ _ => hadd

/-- An operation without regions, of a kind that has no number and no channel. -/
theorem validBuilt_of_kind {spec : OpSpec} {types : List ValueType}
    (hnumber : ∀ n, spec.kind ≠ .const n) (hchannel : spec.kind.channel? = none)
    (htypes : ∀ t ∈ types, t.Small) : ValidBuilt (some (spec, types)) :=
  validBuilt_some ⟨fun n h => absurd h (hnumber n), fun c h => by rw [hchannel] at h; cases h⟩ htypes

theorem small_nil : ∀ t ∈ ([] : List ValueType), t.Small :=
  fun _ ht => absurd ht List.not_mem_nil

theorem small_singleton {t : ValueType} (h : t.Small) : ∀ u ∈ [t], u.Small :=
  List.forall_mem_singleton.2 h

theorem keeps_buildUnary (kind : OpKind) (hnumber : ∀ n, kind ≠ .const n)
    (hchannel : kind.channel? = none) (demand : Demand) (a : Source.Name) :
    Keeps (buildUnary kind demand a) ValidBuilt := by
  refine Keeps.bind (keeps_resolve _ _) fun r _ => keeps_pure ?_
  cases r with
  | none => exact validBuilt_none
  | some v => exact validBuilt_of_kind hnumber hchannel nofun

theorem keeps_buildBinary (kind : OpKind) (hnumber : ∀ n, kind ≠ .const n)
    (hchannel : kind.channel? = none) (demand : Demand) {types : List ValueType}
    (htypes : ∀ t ∈ types, t.Small) (a b : Source.Name) :
    Keeps (buildBinary kind demand types a b) ValidBuilt := by
  refine Keeps.bind (keeps_resolveAll _ _) fun r _ => keeps_pure ?_
  cases r with
  | none => exact validBuilt_none
  | some vs => exact validBuilt_of_kind hnumber hchannel htypes

theorem keeps_buildAlloc (type : Source.TypeExpr) (span : Span) :
    Keeps (buildAlloc type span) ValidBuilt := by
  refine Keeps.bind (keeps_lowerType type) fun t ht => ?_
  split
  · exact keeps_pure (validBuilt_of_kind nofun rfl (small_singleton ht))
  · exact Keeps.bind (keeps_error _ _ _) fun _ _ => keeps_pure validBuilt_none

theorem keeps_buildTransform (ins outs : List Source.Name) :
    Keeps (buildTransform ins outs) ValidBuilt := by
  refine Keeps.bind (keeps_resolveAll _ _) fun r _ => ?_
  refine Keeps.bind (keeps_resolveAll _ _) fun r' _ => keeps_pure ?_
  cases r with
  | none => exact validBuilt_none
  | some vs =>
    cases r' with
    | none => exact validBuilt_none
    | some ws => exact validBuilt_of_kind nofun rfl nofun

theorem keeps_buildApply (args : List Source.Name) : Keeps (buildApply args) ValidBuilt := by
  refine Keeps.bind (keeps_resolveAll _ _) fun r _ => keeps_pure ?_
  cases r with
  | none => exact validBuilt_none
  | some vs => exact validBuilt_of_kind nofun rfl (small_singleton small_index)

theorem keeps_buildYield (values : List Source.Name) : Keeps (buildYield values) ValidBuilt := by
  refine Keeps.bind (keeps_resolveAll _ _) fun r _ => keeps_pure ?_
  cases r with
  | none => exact validBuilt_none
  | some vs => exact validBuilt_of_kind nofun rfl nofun

theorem keeps_buildJoin (deps : List Source.Name) : Keeps (buildJoin deps) ValidBuilt := by
  refine Keeps.bind (keeps_resolveAll _ _) fun r _ => keeps_pure ?_
  cases r with
  | none => exact validBuilt_none
  | some vs => exact validBuilt_of_kind nofun rfl (small_singleton small_token)

theorem keeps_buildTransfer (deps : List Source.Name) (dst src : Source.Access) :
    Keeps (buildTransfer deps dst src) ValidBuilt := by
  refine Keeps.bind (keeps_resolveAll _ _) fun r _ => ?_
  refine Keeps.bind (keeps_resolveAccess _) fun r' _ => ?_
  refine Keeps.bind (keeps_resolveAccess _) fun r'' _ => keeps_pure ?_
  cases r with
  | none => exact validBuilt_none
  | some ds =>
    cases r' with
    | none => exact validBuilt_none
    | some d =>
      cases r'' with
      | none => exact validBuilt_none
      | some s => exact validBuilt_of_kind nofun rfl (small_singleton small_token)

theorem keeps_buildChannel {kind : OpKind} (hkind : kind.Valid) (deps : List Source.Name)
    (buffer : Source.Access) : Keeps (buildChannel kind deps buffer) ValidBuilt := by
  refine Keeps.bind (keeps_resolveAll _ _) fun r _ => ?_
  refine Keeps.bind (keeps_resolveAccess _) fun r' _ => keeps_pure ?_
  cases r with
  | none => exact validBuilt_none
  | some ds =>
    cases r' with
    | none => exact validBuilt_none
    | some a => exact validBuilt_some hkind (small_singleton small_token)

theorem valid_put {c : String} (h : (Token.symbol c).Valid) : (OpKind.put c).Valid :=
  ⟨nofun, fun _ hc => Option.some.inj hc ▸ h⟩

theorem valid_get {c : String} (h : (Token.symbol c).Valid) : (OpKind.get c).Valid :=
  ⟨nofun, fun _ hc => Option.some.inj hc ▸ h⟩

mutual

theorem keeps_buildOp (span : Span) : (op : Source.Op) → Spelled op.tokens →
    Keeps (buildOp span op) ValidBuilt
  | .const n, h => by
    rw [buildOp]
    have hn : (Token.int n).Valid := h _ (by simp [Source.Op.tokens])
    refine keeps_pure (validBuilt_some ⟨?_, nofun⟩ (small_singleton small_index))
    rintro _ ⟨⟩
    exact hn
  | .alloc type, _ => by
    rw [buildOp]
    exact keeps_buildAlloc _ _
  | .dealloc a, _ => by
    rw [buildOp]
    exact keeps_buildUnary .dealloc nofun rfl _ _
  | .copy a b, _ => by
    rw [buildOp]
    exact keeps_buildBinary .copy nofun rfl _ small_nil _ _
  | .transform ins outs, _ => by
    rw [buildOp]
    exact keeps_buildTransform _ _
  | .muli a b, _ => by
    rw [buildOp]
    exact keeps_buildBinary .muli nofun rfl _ (small_singleton small_index) _ _
  | .addi a b, _ => by
    rw [buildOp]
    exact keeps_buildBinary .addi nofun rfl _ (small_singleton small_index) _ _
  | .apply args, _ => by
    rw [buildOp]
    exact keeps_buildApply _
  | .yield values, _ => by
    rw [buildOp]
    exact keeps_buildYield _
  | .finish, _ => by
    rw [buildOp]
    exact keeps_pure (validBuilt_of_kind nofun rfl nofun)
  | .join deps, _ => by
    rw [buildOp]
    exact keeps_buildJoin _
  | .transfer deps dst src, _ => by
    rw [buildOp]
    exact keeps_buildTransfer _ _ _
  | .put channel deps src, h => by
    rw [buildOp]
    exact keeps_buildChannel (valid_put (h _ (by simp [Source.Op.tokens]))) _ _
  | .get channel deps dst, h => by
    rw [buildOp]
    exact keeps_buildChannel (valid_get (h _ (by simp [Source.Op.tokens]))) _ _
  | .compute deps (.mk stmts bodySpan), h => by
    rw [buildOp]
    have hbody : Spelled (Source.stmtTokens stmts) := by
      simp [Source.Op.tokens, Source.Block.tokens] at h
      exact h.2
    refine Keeps.bind (keeps_resolveAll _ _) fun r _ => ?_
    cases r with
    | none => exact keeps_pure validBuilt_none
    | some ds =>
      refine Keeps.bind (keeps_inRegion _ validArgs_nil _ fun b => keeps_lowerStmts b _ stmts hbody)
        fun b _ => ?_
      refine Keeps.bind (keeps_yieldedTypes b) fun types ht => keeps_pure ?_
      exact validBuilt_of_kind nofun rfl (List.forall_mem_cons.2 ⟨small_token, ht⟩)
  | .loop kind var lower upper step carried (.mk stmts bodySpan), h => by
    rw [buildOp]
    simp [Source.Op.tokens, Source.Block.tokens, Source.Binding.tokens] at h
    obtain ⟨hvar, -, -, -, hcarried, hbody⟩ := h
    have hcarried := fun b hb => (hcarried b hb).1
    refine Keeps.bind (keeps_loopOperands lower upper step hvar hcarried) fun r hr => ?_
    cases r with
    | none => exact keeps_pure validBuilt_none
    | some e =>
      refine Keeps.bind (keeps_inRegion _ (hr e rfl) _ fun b => keeps_lowerStmts b _ stmts hbody)
        fun b _ => keeps_pure ?_
      refine validBuilt_of_kind nofun rfl fun t ht => ?_
      obtain ⟨a, ha, rfl⟩ := List.mem_map.1 ht
      exact (hr e rfl a (List.mem_of_mem_tail ha)).2
  | .branch cond (.mk thenStmts thenSpan) (.mk elseStmts elseSpan), h => by
    rw [buildOp]
    simp [Source.Op.tokens, Source.Block.tokens] at h
    obtain ⟨-, hthen, helse⟩ := h
    refine Keeps.bind (keeps_resolve _ _) fun r _ => ?_
    cases r with
    | none => exact keeps_pure validBuilt_none
    | some v =>
      refine Keeps.bind (keeps_inRegion _ validArgs_nil _ fun b => keeps_lowerStmts b _ thenStmts hthen)
        fun b _ => ?_
      refine Keeps.bind (keeps_inRegion _ validArgs_nil _ fun b => keeps_lowerStmts b _ elseStmts helse)
        fun b' _ => ?_
      refine Keeps.bind (keeps_yieldedTypes b) fun types ht => ?_
      refine Keeps.bind (keeps_yieldedTypes b') fun types' _ => ?_
      split
      · exact keeps_pure (validBuilt_of_kind nofun rfl ht)
      · exact Keeps.bind (keeps_error _ _ _) fun _ _ => keeps_pure validBuilt_none
  | .hierarchy level deps ids args (.mk stmts bodySpan), h => by
    rw [buildOp]
    simp [Source.Op.tokens, Source.Block.tokens, Source.Binding.tokens] at h
    obtain ⟨-, hids, hargs, hbody⟩ := h
    have hargs := fun b hb => (hargs b hb).1
    refine Keeps.bind (keeps_hierarchyOperands deps hids hargs) fun r hr => ?_
    cases r with
    | none => exact keeps_pure validBuilt_none
    | some e =>
      refine Keeps.bind (keeps_inRegion _ (hr e rfl) _ fun b => keeps_lowerStmts b _ stmts hbody)
        fun b _ => keeps_pure ?_
      exact validBuilt_of_kind nofun rfl (small_singleton small_token)

theorem keeps_lowerStmt (b : BlockId) : (stmt : Source.Stmt) → Spelled stmt.tokens →
    Keeps (lowerStmt b stmt) fun _ => True
  | .mk results op span, h => by
    rw [lowerStmt]
    rw [Source.Stmt.tokens, Source.spelled_append, Source.spelled_results] at h
    refine Keeps.bind (keeps_buildOp span op h.2) fun r hr => ?_
    cases r with
    | none => exact keeps_pure trivial
    | some e => exact keeps_addOp b h.1 (hr e rfl).1 (hr e rfl).2

theorem keeps_lowerStmts (b : BlockId) (region : Region) : (stmts : List Source.Stmt) →
    Spelled (Source.stmtTokens stmts) → Keeps (lowerStmts b region stmts) fun _ => True
  | [], _ => by
    rw [lowerStmts]
    exact keeps_pure trivial
  | stmt :: rest, h => by
    rw [lowerStmts]
    rw [Source.stmtTokens, Source.spelled_append, Source.spelled_cons] at h
    simp only
    split
    · exact Keeps.bind (keeps_lowerStmt b stmt h.1) fun _ _ => keeps_lowerStmts b region rest h.2.2
    · exact Keeps.bind (keeps_error _ _ _) fun _ _ => keeps_lowerStmts b region rest h.2.2

end

/-! ## Functions and modules -/

theorem keeps_lowerParams (params : List Source.Param) (h : ∀ a ∈ params, a.name.Valid) :
    Keeps (lowerParams params) Program.ValidValues := by
  induction params with
  | nil => exact keeps_pure nofun
  | cons param params ih =>
    rw [List.forall_mem_cons] at h
    refine Keeps.bind (keeps_lowerType param.type) fun type htype => ?_
    refine Keeps.bind (ih h.2) fun rest hrest => keeps_pure ?_
    refine List.forall_mem_cons.2 ⟨⟨?_, htype⟩, hrest⟩
    rintro _ ⟨⟩
    exact h.1

theorem keeps_lowerFunc {f : Source.Func} (h : Spelled f.tokens) :
    Keeps (lowerFunc f) fun _ => True := by
  obtain ⟨name, params, ⟨stmts, bodySpan⟩, span⟩ := f
  simp only [Source.Func.tokens, Source.Block.tokens, Source.Param.tokens, Source.spelled_cons,
    Source.spelled_append, Source.spelled_parens, Source.spelled_commas] at h
  obtain ⟨-, hname, hparams, -, -, hbody, -⟩ := h
  rw [lowerFunc_eq]
  refine Keeps.bind (keeps_lowerParams params fun a ha => (hparams a ha).1) fun args hargs => ?_
  refine Keeps.bind (keeps_openSite (fun p hp => hp.addFunc hargs hname) _ _) fun b _ => ?_
  refine Keeps.bind (keeps_lowerStmts b _ stmts hbody) fun _ _ => ?_
  exact Keeps.bind (keeps_closeBody _ _ _) fun _ _ => keeps_modify fun _ => rfl

theorem keeps_lowerFuncs {funcs : List Source.Func} (h : ∀ f ∈ funcs, Spelled f.tokens) :
    Keeps (funcs.forM lowerFunc) fun _ => True := by
  induction funcs with
  | nil => exact keeps_pure trivial
  | cons f funcs ih =>
    rw [List.forall_mem_cons] at h
    exact Keeps.bind (keeps_lowerFunc h.1) fun _ _ => ih h.2

end Lowering

/-- What an accepted text spells can be spelled. -/
theorem spelt_of_readProgram {source : String} {p : Program} (h : readProgram source = .ok p) :
    p.Spelt := by
  rw [readProgram] at h
  split at h
  · next m hparse =>
    simp only at h
    split at h
    · cases h
    · obtain rfl := Except.ok.inj h
      have hfuncs := Source.spelled_of_parse hparse
      exact (Lowering.keeps_lowerFuncs hfuncs ⟨.empty, [], []⟩ Program.spelt_empty).1
  · cases h

end AsyncOrder
