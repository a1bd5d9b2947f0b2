import AsyncOrder.Proofs.Lowering.Reading
import AsyncOrder.Proofs.Source.Typing

/-!
# Names that are looked up

A run that looks up names ends without error exactly if the rules for names are met, and it is
told then what they mean.  The context of a construction lists by type what is defined at its
sites.

    Tells c m J R    begun clean in a match of `c`, the run of `m` ends clean exactly if `J b` for
                     some `b`; there is one such `b` then, and the run returns some `a` with `R b a`
-/

namespace AsyncOrder

/-- The types of what names were given to, latest first. -/
def Program.declared (p : Program) (vs : List ValueId) : List (String × ValueType) :=
  (p.entries vs).map fun e => (e.1, p.valueType e.2)

namespace Lowering

variable {α β γ δ : Type}

/-! ## Contexts of constructions -/

/-- What is defined in the block of a site. -/
def Site.scope (p : Program) (s : Site) : Source.Scope where
  names := p.declared (p.locals s.block)
  isolated := decide (s.region = .hierarchy)

def Construction.context (c : Construction) : Source.Context := c.sites.map (Site.scope c.program)

theorem FrameAt.scope_eq {p : Program} {f : Frame} {s : Site} (h : FrameAt p f s) :
    s.scope p = ⟨f.names.map fun e => (e.1, p.valueType e.2), f.isolated⟩ := by
  rw [Site.scope, Program.declared, h.names, h.isolated]

theorem FrameAt.distinct_scope {p : Program} {f : Frame} {s : Site} (h : FrameAt p f s) :
    (s.scope p).Distinct := by
  rw [h.scope_eq, Source.Scope.Distinct, List.map_map]
  exact h.distinct

theorem lookup_map_snd (f : β → γ) (n : String) (es : List (String × β)) :
    (es.map fun e => (e.1, f e.2)).lookup n = (es.lookup n).map f := by
  induction es with
  | nil => rfl
  | cons e es ih =>
    rw [List.map_cons, List.lookup_cons, List.lookup_cons, ih]
    split <;> rfl

/-- The context has the names that are found within reach. -/
theorem has_iff_lookup {p : Program} {n : String} {t : ValueType} {frames : List Frame}
    {sites : List Site} (hmatch : List.Forall₂ (FrameAt p) frames sites) :
    Source.Context.Has (sites.map (Site.scope p)) n t ↔
      ∃ v, lookup n frames = some (v, false) ∧ p.valueType v = t := by
  induction hmatch with
  | nil => exact iff_of_false nofun fun ⟨v, hv, _⟩ => nomatch hv
  | @cons f s frames sites hf _ ih =>
    have hnames : (s.scope p).names.lookup n = (f.names.lookup n).map p.valueType := by
      rw [hf.scope_eq]
      exact lookup_map_snd p.valueType n f.names
    have hisolated : (s.scope p).isolated = f.isolated := by rw [hf.scope_eq]
    rw [List.map_cons, lookup]
    cases hn : f.names.lookup n with
    | some w =>
      rw [hn, Option.map_some] at hnames
      constructor
      · intro h
        cases h with
        | here h => exact ⟨w, rfl, Option.some.inj (hnames.symm.trans h)⟩
        | outer hnot => simp [hnames] at hnot
      · rintro ⟨v, hv, rfl⟩
        obtain ⟨rfl, -⟩ := Prod.mk.inj (Option.some.inj hv)
        exact .here hnames
    | none =>
      rw [hn, Option.map_none] at hnames
      constructor
      · intro h
        cases h with
        | here h => simp [hnames] at h
        | outer _ hopen h =>
          obtain ⟨v, hv, ht⟩ := ih.1 h
          refine ⟨v, ?_, ht⟩
          simp [hv, ← hisolated, hopen]
      · rintro ⟨v, hv, ht⟩
        obtain ⟨⟨w, beyond⟩, hw, heq⟩ := Option.map_eq_some_iff.1 hv
        obtain ⟨rfl, hor⟩ := Prod.mk.inj heq
        obtain ⟨rfl, hopen⟩ := Bool.or_eq_false_iff.1 hor
        exact .outer hnames (hisolated.trans hopen) (ih.2 ⟨w, hw, ht⟩)

/-! ## Rules -/

structure Tells (c : Construction) (m : Lower α) (J : β → Prop) (R : β → α → Prop) : Prop where
  accepts : ∀ s, Matches s c → s.Clean → ∀ b, J b → (m.run s).2.Clean
  settles : ∀ s, Matches s c → (m.run s).2.Clean →
    Matches (m.run s).2 c ∧ ∃ b, R b (m.run s).1 ∧ ∀ b', J b' ↔ b' = b

namespace Tells

variable {c : Construction} {m : Lower α} {J J' : β → Prop} {R R' : β → α → Prop}
variable {K' : δ → Prop} {T : δ → γ → Prop}

theorem congr (hm : Tells c m J R) (h : ∀ b, J' b ↔ J b) : Tells c m J' R where
  accepts s hmatch hs b hb := hm.accepts s hmatch hs b ((h b).1 hb)
  settles s hmatch hs := by
    obtain ⟨hmatch, b, hR, hb⟩ := hm.settles s hmatch hs
    exact ⟨hmatch, b, hR, fun b' => (h b').trans (hb b')⟩

theorem mono (hm : Tells c m J R) (h : ∀ b a, R b a → R' b a) : Tells c m J R' where
  accepts := hm.accepts
  settles s hmatch hs := by
    obtain ⟨hmatch, b, hR, hb⟩ := hm.settles s hmatch hs
    exact ⟨hmatch, b, h _ _ hR, hb⟩

/-- What a clean run is told holds. -/
theorem holds (hm : Tells c m J R) : Tells c m J fun b a => R b a ∧ J b where
  accepts := hm.accepts
  settles s hmatch hs := by
    obtain ⟨hmatch, b, hR, hb⟩ := hm.settles s hmatch hs
    exact ⟨hmatch, b, ⟨hR, (hb b).2 rfl⟩, hb⟩

/-- Only whether something is told. -/
theorem forget (hm : Tells c m J R) :
    Tells c m (fun _ : Unit => ∃ b, J b) fun _ a => ∃ b, R b a where
  accepts s hmatch hs _ := fun ⟨b, hb⟩ => hm.accepts s hmatch hs b hb
  settles s hmatch hs := by
    obtain ⟨hmatch, b, hR, hb⟩ := hm.settles s hmatch hs
    exact ⟨hmatch, (), ⟨b, hR⟩, fun _ => iff_of_true ⟨b, (hb b).2 rfl⟩ rfl⟩

theorem bind {f : α → Lower γ} (hm : Tells c m J R) (hhonest : ∀ a, Honest (f a))
    (K : β → δ → Prop) (hf : ∀ b a, R b a → Tells c (f a) (K b) T)
    (hK : ∀ e, K' e ↔ ∃ b, J b ∧ K b e) : Tells c (m >>= f) K' T where
  accepts := by
    intro s hmatch hs e he
    obtain ⟨b, hJ, he⟩ := (hK e).1 he
    have hclean := hm.accepts s hmatch hs b hJ
    obtain ⟨hmatch, b', hR, hb'⟩ := hm.settles s hmatch hclean
    obtain rfl := (hb' b).1 hJ
    exact (hf b _ hR).accepts _ hmatch hclean e he
  settles := by
    intro s hmatch hs
    obtain ⟨hmatch, b, hR, hb⟩ := hm.settles s hmatch (hhonest _ _ hs)
    obtain ⟨hmatch, e, hT, he⟩ := (hf b _ hR).settles _ hmatch hs
    refine ⟨hmatch, e, hT, fun e' => (hK e').trans ⟨?_, ?_⟩⟩
    · rintro ⟨b', hJ, hK⟩
      obtain rfl := (hb b').1 hJ
      exact (he e').1 hK
    · intro he'
      exact ⟨b, (hb b).2 rfl, (he e').2 he'⟩

theorem pure {a : α} {b : β} (h : R b a) : Tells c (pure a) (· = b) R where
  accepts _ _ hs _ _ := hs
  settles _ hmatch _ := ⟨hmatch, b, h, fun _ => Iff.rfl⟩

theorem map {g : α → γ} (hm : Tells c m J R) (h : β → δ) (hT : ∀ b a, R b a → T (h b) (g a))
    (hK : ∀ e, K' e ↔ ∃ b, J b ∧ e = h b) : Tells c (m >>= fun a => Pure.pure (g a)) K' T :=
  hm.bind (fun _ => (reads_pure _).honest) (fun b e => e = h b) (fun b a hR => .pure (hT b a hR)) hK

theorem get {f : State → Lower α} (hf : ∀ s, Matches s c → Tells c (f s) J R) :
    Tells c (get >>= f) J R where
  accepts s hmatch := (hf s hmatch).accepts s hmatch
  settles s hmatch := (hf s hmatch).settles s hmatch

/-- A run that always reports an error. -/
theorem never (hm : Reads m fun _ _ => False) (hJ : ∀ b, ¬ J b) : Tells c m J R where
  accepts _ _ _ b hb := absurd hb (hJ b)
  settles s hmatch hs := ((hm s hs).2 c hmatch).2.elim

end Tells

/-! ## Uses -/

section Uses

variable {c : Construction}

theorem tells_resolve (demand : Demand) (name : Source.Name) :
    Tells c (resolve demand name) (c.context.Gives demand name)
      fun t r => ∃ v, r = some v ∧ c.program.valueType v = t := by
  refine Tells.get fun s hmatch => ?_
  have hhas : ∀ t, c.context.Has name.text t ↔
      ∃ v, lookup name.text s.frames = some (v, false) ∧ c.program.valueType v = t :=
    fun t => has_iff_lookup hmatch.frames
  rw [hmatch.program]
  split
  · next hnone =>
    refine .never (Reads.never (reads_error _ _ _ _) fun _ => reads_pure_true _) ?_
    rintro t ⟨h, -⟩
    obtain ⟨v, hv, -⟩ := (hhas t).1 h
    simp [hnone] at hv
  · next hbeyond =>
    refine .never (Reads.never (reads_report rfl _) fun _ => reads_pure_true _) ?_
    rintro t ⟨h, -⟩
    obtain ⟨v, hv, -⟩ := (hhas t).1 h
    simp [hbeyond] at hv
  · next v hv =>
    have heq : ∀ t, c.context.Has name.text t ↔ t = c.program.valueType v := by
      intro t
      rw [hhas, hv]
      constructor
      · rintro ⟨w, hw, rfl⟩
        obtain ⟨rfl, -⟩ := Prod.mk.inj (Option.some.inj hw)
        rfl
      · rintro rfl
        exact ⟨v, rfl, rfl⟩
    simp only
    split
    · next hacc =>
      refine (Tells.pure ⟨v, rfl, rfl⟩).congr fun t => ?_
      rw [Source.Context.Gives, heq]
      exact and_iff_left_of_imp fun ht => ht ▸ hacc
    · next hacc =>
      refine .never (Reads.never (reads_error _ _ _ _) fun _ => reads_pure_true _) ?_
      rintro t ⟨h, ht⟩
      obtain rfl := (heq t).1 h
      exact hacc ht

theorem forall₂_cons_iff {J : β → γ → Prop} {b : β} {bs : List β} {es : List γ} :
    List.Forall₂ J (b :: bs) es ↔ ∃ e, J b e ∧ ∃ es', List.Forall₂ J bs es' ∧ es = e :: es' := by
  simp only [List.forall₂_cons_left_iff, exists_and_left]

theorem tells_resolveAll (demand : Demand) (names : List Source.Name) :
    Tells c (resolveAll demand names) (List.Forall₂ (c.context.Gives demand) names)
      fun ts r => ∃ vs, r = some vs ∧ vs.map c.program.valueType = ts := by
  induction names with
  | nil =>
    refine (Tells.pure ⟨[], rfl, rfl⟩).congr fun ts => ?_
    exact List.forall₂_nil_left_iff
  | cons name names ih =>
    refine (tells_resolve demand name).bind (fun r => ?_)
      (fun t ts => ∃ us, List.Forall₂ (c.context.Gives demand) names us ∧ ts = t :: us) ?_ ?_
    · exact Honest.bind (reads_resolveAll demand names).honest fun _ => (reads_pure _).honest
    · rintro t _ ⟨v, rfl, hv⟩
      refine ih.map (t :: ·) ?_ fun _ => Iff.rfl
      rintro us _ ⟨vs, rfl, rfl⟩
      exact ⟨v :: vs, rfl, congrArg (· :: _) hv⟩
    · exact fun _ => forall₂_cons_iff

theorem exists_forall₂_iff {J : β → γ → Prop} {bs : List β} :
    (∃ es, List.Forall₂ J bs es) ↔ ∀ b ∈ bs, ∃ e, J b e := by
  induction bs with
  | nil => exact iff_of_true ⟨[], .nil⟩ fun b hb => absurd hb List.not_mem_nil
  | cons b bs ih =>
    rw [List.forall_mem_cons, ← ih]
    constructor
    · rintro ⟨_, h⟩
      cases h with
      | cons hb hbs => exact ⟨⟨_, hb⟩, _, hbs⟩
    · rintro ⟨⟨e, hb⟩, es, hbs⟩
      exact ⟨e :: es, .cons hb hbs⟩

/-- When only values of one type will do, the names need not tell it. -/
theorem tells_resolveAll_of (demand : Demand) {t : ValueType}
    (ht : ∀ u, demand.accepts u = true → u = t) (names : List Source.Name) :
    Tells c (resolveAll demand names) (fun _ : Unit => ∀ a ∈ names, c.context.Gives demand a t)
      fun _ r => ∃ vs, r = some vs ∧ vs.length = names.length := by
  refine ((tells_resolveAll demand names).holds.forget.mono ?_).congr fun _ => ?_
  · rintro - r ⟨ts, ⟨vs, rfl, rfl⟩, hall⟩
    exact ⟨vs, rfl, by rw [hall.length_eq, List.length_map]⟩
  · rw [exists_forall₂_iff]
    refine forall₂_congr fun a _ => ⟨fun h => ⟨t, h⟩, ?_⟩
    rintro ⟨u, hu⟩
    exact ht u hu.2 ▸ hu

theorem tells_index (names : List Source.Name) :
    Tells c (resolveAll .index names) (fun _ : Unit => ∀ a ∈ names, c.context.Gives .index a .index)
      fun _ r => ∃ vs, r = some vs ∧ vs.length = names.length :=
  tells_resolveAll_of .index (by simp [Demand.accepts]) names

theorem tells_token (names : List Source.Name) :
    Tells c (resolveAll .token names) (fun _ : Unit => ∀ a ∈ names, c.context.Gives .token a .token)
      fun _ r => ∃ vs, r = some vs ∧ vs.length = names.length :=
  tells_resolveAll_of .token (fun _ h => ValueType.isToken_iff.1 h) names

/-- The check that follows when a buffer and its offsets have been looked up. -/
def checkRank (name : Source.Name) (base : Option ValueId) (offsets : Option (List ValueId)) :
    Lower (Option (ValueId × List ValueId)) := do
  match base, offsets with
  | some base, some offsets =>
    match ((← get).program.valueType base).rank? with
    | some rank =>
      if offsets.isEmpty || offsets.length = rank then return some (base, offsets)
      else
        error Code.typeMismatch name.span
          (s!"'%{name.text}' has rank {rank} but is indexed with " ++
            s!"{offsets.length} offsets")
        return none
    | none => return some (base, offsets)
  | _, _ => return none

theorem resolveAccess_eq (a : Source.Access) : resolveAccess a =
    resolve .memref a.base >>= fun base => resolveAll .index a.offsets >>= checkRank a.base base :=
  rfl

theorem honest_checkRank (name : Source.Name) (base : Option ValueId)
    (offsets : Option (List ValueId)) : Honest (checkRank name base offsets) := by
  unfold checkRank
  split
  · refine Honest.bind reads_get.honest fun s => ?_
    split
    · split
      · exact (reads_pure _).honest
      · exact Honest.bind (reads_error _ _ _ fun _ _ => True).honest fun _ => (reads_pure _).honest
    · exact (reads_pure _).honest
  · exact (reads_pure _).honest

theorem tells_checkRank (name : Source.Name) {base : ValueId} {offsets : List ValueId}
    (hmemref : (c.program.valueType base).isMemref = true) :
    Tells c (checkRank name (some base) (some offsets))
      (fun _ : Unit => offsets = [] ∨ (c.program.valueType base).rank? = some offsets.length)
      fun _ r => ∃ base offsets, r = some (base, offsets) := by
  refine Tells.get fun s hmatch => ?_
  rw [hmatch.program]
  cases htype : c.program.valueType base with
  | token => simp [htype, ValueType.isMemref] at hmemref
  | index => simp [htype, ValueType.isMemref] at hmemref
  | memref rank space =>
    simp only [ValueType.rank?, Option.some.injEq, Bool.or_eq_true, List.isEmpty_iff,
      decide_eq_true_eq]
    split
    · next h =>
      refine (Tells.pure (b := ()) ⟨base, offsets, rfl⟩).congr fun _ => ?_
      exact iff_of_true (h.imp_right Eq.symm) rfl
    · next h =>
      refine .never (Reads.never (reads_error _ _ _ _) fun _ => reads_pure_true _) fun _ hor => ?_
      exact h (hor.imp_right Eq.symm)

theorem tells_resolveAccess (a : Source.Access) :
    Tells c (resolveAccess a) (fun _ : Unit => c.context.Reaches a)
      fun _ r => ∃ base offsets, r = some (base, offsets) := by
  rw [resolveAccess_eq]
  refine (tells_resolve .memref a.base).holds.bind (fun base => ?_)
    (fun t _ => (∀ o ∈ a.offsets, c.context.Gives .index o .index) ∧
      (a.offsets = [] ∨ t.rank? = some a.offsets.length)) ?_ fun _ => Iff.rfl
  · exact Honest.bind (reads_resolveAll _ _).honest (honest_checkRank a.base base)
  rintro t _ ⟨⟨base, rfl, rfl⟩, -, hmemref⟩
  refine (tells_index a.offsets).bind (honest_checkRank a.base (some base))
    (fun _ _ => a.offsets = [] ∨ (c.program.valueType base).rank? = some a.offsets.length) ?_
    fun _ => by simp
  rintro - _ ⟨offsets, rfl, hlen⟩
  refine (tells_checkRank a.base hmemref).congr fun _ => ?_
  rw [hlen, ← List.length_eq_zero_iff, ← List.length_eq_zero_iff, hlen]

end Uses

/-! ## Types -/

theorem ofText?_eq_some_iff {text : String} {space : MemorySpace} :
    MemorySpace.ofText? text = some space ↔ text = space.text := by
  constructor
  · intro h
    have := List.find?_some h
    simpa using (beq_iff_eq.1 this).symm
  · rintro rfl
    cases space <;> rfl

theorem denotes_memref_iff {rank : Int} {space : Source.Name} {span : Span} {t : ValueType} :
    (Source.TypeExpr.memref rank space span).Denotes t ↔
      isRank rank = true ∧ ∃ s, MemorySpace.ofText? space.text = some s ∧
        t = .memref rank.toNat s := by
  have hrank : isRank rank = true ↔ 0 ≤ rank ∧ rank < UInt32.size := by simp [isRank]
  rw [hrank]
  constructor
  · intro h
    cases h with
    | @memref n _ s _ hn hspace =>
      exact ⟨by omega, s, ofText?_eq_some_iff.2 hspace, by rw [Int.toNat_natCast]⟩
  · rintro ⟨⟨hnonneg, hlt⟩, s, hs, rfl⟩
    obtain ⟨n, rfl⟩ := Int.eq_ofNat_of_zero_le hnonneg
    exact .memref span (by omega) (ofText?_eq_some_iff.1 hs)

theorem tells_lowerType {c : Construction} (type : Source.TypeExpr) :
    Tells c (lowerType type) type.Denotes Eq := by
  cases type with
  | token span =>
    refine (Tells.pure (b := ValueType.token) rfl).congr fun t => ⟨fun h => ?_, ?_⟩
    · cases h
      rfl
    · rintro rfl
      exact .token span
  | index span =>
    refine (Tells.pure (b := ValueType.index) rfl).congr fun t => ⟨fun h => ?_, ?_⟩
    · cases h
      rfl
    · rintro rfl
      exact .index span
  | memref rank space span =>
    have hrank : ∀ type : ValueType, Tells c (do
        unless isRank rank do error Code.badMemoryType span s!"invalid rank {rank}"
        return type) (fun t => isRank rank = true ∧ t = type) Eq := by
      intro type
      simp only
      split
      · next h => exact (Tells.pure rfl).congr fun t => and_iff_right h
      · next h =>
        exact .never (Reads.never (reads_error _ _ _ _) fun _ => reads_pure_true _)
          fun t ht => h ht.1
    unfold lowerType
    simp only
    split
    · next hnone =>
      refine .never (Reads.never (reads_error _ _ _ _) fun _ => ?_) fun t ht => ?_
      · split
        · exact reads_pure_true _
        · exact Reads.never (reads_error _ _ _ _) fun _ => reads_pure_true _
      · obtain ⟨-, s, hs, -⟩ := denotes_memref_iff.1 ht
        simp [hs] at hnone
    · next hsome =>
      rw [Option.isNone_iff_eq_none, ← ne_eq, Option.ne_none_iff_exists'] at hsome
      obtain ⟨s, hs⟩ := hsome
      refine (hrank _).congr fun t => ?_
      rw [denotes_memref_iff]
      refine and_congr_right fun h => ?_
      rw [if_pos h, hs]
      exact ⟨fun ⟨s', hs', ht⟩ => Option.some.inj hs' ▸ ht, fun ht => ⟨s, rfl, ht⟩⟩

theorem tells_lowerParams {c : Construction} (params : List Source.Param) :
    Tells c (lowerParams params)
      (List.Forall₂ (fun (param : Source.Param) t => param.type.Denotes t) params)
      fun ts r => r.map (·.2) = ts ∧
        r.map (·.1) = (params.map (·.name)).map fun n => some n.text := by
  induction params with
  | nil =>
    refine (Tells.pure (b := []) ⟨rfl, rfl⟩).congr fun ts => ?_
    exact List.forall₂_nil_left_iff
  | cons param params ih =>
    refine (tells_lowerType param.type).bind (fun type => ?_)
      (fun t ts => ∃ us, List.Forall₂ (fun (param : Source.Param) u => param.type.Denotes u)
        params us ∧ ts = t :: us) ?_ ?_
    · exact Honest.bind (reads_lowerParams params).honest fun _ => (reads_pure _).honest
    · rintro t _ rfl
      refine ih.map (t :: ·) ?_ fun _ => Iff.rfl
      rintro us r ⟨rfl, hnames⟩
      exact ⟨rfl, congrArg (some param.name.text :: ·) hnames⟩
    · exact fun _ => forall₂_cons_iff

end Lowering

end AsyncOrder
