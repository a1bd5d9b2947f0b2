import AsyncOrder.Proofs.Lowering.Offering

/-!
# Judging what is added

Steps that add to a program are judged as those that look up names are, and besides by the loops
they add.

    Judges carry c m J R    as `Tells c m J R`, where the program has changed by the end of the run
                            and R b a p is about what it is then; that J b for some b also says
                            that `carry` allows what new loops yield
-/

namespace AsyncOrder

open Source (Carry)

/-- If the operation is a loop, `carry` allows what its body yields. -/
def Program.YieldsBy (p : Program) (carry : Carry) (o : OpId) : Prop :=
  (p.kind o).isLoop = true → ∀ b ∈ (p.op o).regions,
    carry ((p.op o).results.map p.valueType) (p.signature b).yields

namespace Lowering

variable {α β γ δ : Type} {carry : Carry}

/-! ## New loops -/

/-- The loops that `q` has and `p` does not. -/
def NewLoops (carry : Carry) (p q : Program) : Prop :=
  ∀ o : OpId, p.ops.size ≤ o.index → o.index < q.ops.size → q.YieldsBy carry o

theorem newLoops_of_size {p q : Program} (h : q.ops.size = p.ops.size) : NewLoops carry p q := by
  intro o hlow hhigh
  omega

theorem Sound.yieldsBy_iff {c d : Construction} (hc : Sound c) (hcd : Steps c d) {o : OpId}
    (ho : o.index < c.program.ops.size) :
    d.program.YieldsBy carry o ↔ c.program.YieldsBy carry o := by
  have hgrow := hc.grows hcd
  rw [Program.YieldsBy, hgrow.kind_eq ho, hgrow.op o ho]
  rw [hgrow.map_valueType fun v hv => hc.linked.result_lt hv]
  refine imp_congr_right fun _ => forall₂_congr fun b hb => ?_
  have howner := (hc.linked.mem_regions o b).1 hb
  rw [hgrow.signature_eq hc.linked hc.used (Program.Linked.block_lt_of_owner howner)
    (congrArg Block.ops (hgrow.owned b o howner))]

theorem newLoops_iff {c d e : Construction} (hd : Sound d) (hgrow : c.program.Grows d.program)
    (hde : Steps d e) : NewLoops carry c.program e.program ↔
      NewLoops carry c.program d.program ∧ NewLoops carry d.program e.program := by
  have hsize := (hd.grows hde).size_ops
  constructor
  · intro h
    refine ⟨fun o hlow hhigh => ?_, fun o hlow hhigh => ?_⟩
    · exact (hd.yieldsBy_iff hde hhigh).1 (h o hlow (by omega))
    · exact h o (Nat.le_trans hgrow.size_ops hlow) hhigh
  · rintro ⟨hcd, hde'⟩ o hlow hhigh
    by_cases ho : o.index < d.program.ops.size
    · exact (hd.yieldsBy_iff hde ho).2 (hcd o hlow ho)
    · exact hde' o (by omega) hhigh

/-! ## Rules -/

structure Judges (carry : Carry) (c : Construction) (m : Lower α) (J : β → Prop)
    (R : β → α → Program → Prop) : Prop where
  accepts : ∀ s, Matches s c → s.Clean → ∀ b, J b → (m.run s).2.Clean
  settles : ∀ s, Matches s c → (m.run s).2.Clean → ∃ b d, Steps c d ∧
    d.program = (m.run s).2.program ∧ R b (m.run s).1 d.program ∧
      ∀ b', J b' ↔ b' = b ∧ NewLoops carry c.program d.program

section Rules

variable {c : Construction} {m : Lower α} {J J' : β → Prop} {R R' : β → α → Program → Prop}
variable {K' : δ → Prop} {T : δ → γ → Program → Prop} {f : α → Lower γ}

theorem Judges.congr (hm : Judges carry c m J R) (h : ∀ b, J' b ↔ J b) : Judges carry c m J' R where
  accepts s hmatch hs b hb := hm.accepts s hmatch hs b ((h b).1 hb)
  settles s hmatch hs := by
    obtain ⟨b, d, hcd, hd, hR, hb⟩ := hm.settles s hmatch hs
    exact ⟨b, d, hcd, hd, hR, fun b' => (h b').trans (hb b')⟩

theorem Judges.mono (hm : Judges carry c m J R) (h : ∀ b a p, R b a p → R' b a p) :
    Judges carry c m J R' where
  accepts := hm.accepts
  settles s hmatch hs := by
    obtain ⟨b, d, hcd, hd, hR, hb⟩ := hm.settles s hmatch hs
    exact ⟨b, d, hcd, hd, h _ _ _ hR, hb⟩

theorem Judges.bind (hc : Sound c) (hm : Judges carry c m J R) {S : α → Construction → Prop}
    (hbuilds : Builds c m S) (hhonest : ∀ a, Honest (f a)) (K : β → δ → Prop)
    (hf : ∀ b a d, Steps c d → S a d → R b a d.program → Judges carry d (f a) (K b) T)
    (hK : ∀ e, K' e ↔ ∃ b, J b ∧ K b e) : Judges carry c (m >>= f) K' T where
  accepts := by
    intro s hmatch hs e he
    obtain ⟨b, hJ, he⟩ := (hK e).1 he
    have hclean := hm.accepts s hmatch hs b hJ
    obtain ⟨b', d, -, hprogram, hR, hb'⟩ := hm.settles s hmatch hclean
    obtain rfl := ((hb' b).1 hJ).1
    obtain ⟨d', hcd', hmatch', hS⟩ := hbuilds s hmatch hclean
    rw [hprogram, hmatch'.program] at hR
    exact (hf b _ d' hcd' hS hR).accepts _ hmatch' hclean e he
  settles := by
    intro s hmatch hs
    have hclean := hhonest _ _ hs
    obtain ⟨b, d, hcd, hprogram, hR, hb⟩ := hm.settles s hmatch hclean
    obtain ⟨d', hcd', hmatch', hS⟩ := hbuilds s hmatch hclean
    rw [hmatch'.program] at hprogram
    rw [hprogram] at hR hb
    obtain ⟨e, x, hdx, hx, hT, he⟩ := (hf b _ d' hcd' hS hR).settles _ hmatch' hs
    refine ⟨e, x, hcd'.trans hdx, hx, hT, fun e' => (hK e').trans ?_⟩
    rw [newLoops_iff (hc.steps hcd') (hc.grows hcd') hdx]
    constructor
    · rintro ⟨b', hJ, hK⟩
      obtain ⟨rfl, hloops⟩ := (hb b').1 hJ
      obtain ⟨rfl, hloops'⟩ := (he e').1 hK
      exact ⟨rfl, hloops, hloops'⟩
    · rintro ⟨rfl, hloops, hloops'⟩
      exact ⟨b, (hb b).2 ⟨rfl, hloops⟩, (he e').2 ⟨rfl, hloops'⟩⟩

theorem Tells.judges {R : β → α → Prop} (hm : Tells c m J R) :
    Judges carry c m J fun b a p => p = c.program ∧ R b a where
  accepts := hm.accepts
  settles s hmatch hs := by
    obtain ⟨hmatch', b, hR, hb⟩ := hm.settles s hmatch hs
    refine ⟨b, c, .refl, hmatch'.program.symm, ⟨rfl, hR⟩, fun b' => (hb b').trans ?_⟩
    exact (and_iff_left (newLoops_of_size rfl)).symm

theorem Tells.then {R : β → α → Prop} (hm : Tells c m J R) (hhonest : ∀ a, Honest (f a))
    (K : β → δ → Prop) (hf : ∀ b a, R b a → Judges carry c (f a) (K b) T)
    (hK : ∀ e, K' e ↔ ∃ b, J b ∧ K b e) : Judges carry c (m >>= f) K' T where
  accepts := by
    intro s hmatch hs e he
    obtain ⟨b, hJ, he⟩ := (hK e).1 he
    have hclean := hm.accepts s hmatch hs b hJ
    obtain ⟨hmatch', b', hR, hb'⟩ := hm.settles s hmatch hclean
    obtain rfl := (hb' b).1 hJ
    exact (hf b _ hR).accepts _ hmatch' hclean e he
  settles := by
    intro s hmatch hs
    obtain ⟨hmatch', b, hR, hb⟩ := hm.settles s hmatch (hhonest _ _ hs)
    obtain ⟨e, d, hcd, hd, hT, he⟩ := (hf b _ hR).settles _ hmatch' hs
    refine ⟨e, d, hcd, hd, hT, fun e' => (hK e').trans ?_⟩
    constructor
    · rintro ⟨b', hJ, hK⟩
      obtain rfl := (hb b').1 hJ
      exact (he e').1 hK
    · intro he'
      exact ⟨b, (hb b).2 rfl, (he e').2 he'⟩

theorem Judges.get {f : State → Lower α} (hf : ∀ s, Matches s c → Judges carry c (f s) J R) :
    Judges carry c (get >>= f) J R where
  accepts s hmatch := (hf s hmatch).accepts s hmatch
  settles s hmatch := (hf s hmatch).settles s hmatch

theorem Judges.of_matches (h : ∀ s, Matches s c → Judges carry c m J R) : Judges carry c m J R where
  accepts s hmatch := (h s hmatch).accepts s hmatch
  settles s hmatch := (h s hmatch).settles s hmatch

/-- Whatever is known beforehand may be told, too. -/
theorem Judges.only {P : Prop} {Q : α → Program → Prop}
    (hm : Judges carry c m (fun _ : Unit => P) fun _ => Q) (b : β) :
    Judges carry c m (fun b' => P ∧ b' = b) fun b' a p => b' = b ∧ Q a p where
  accepts s hmatch hs _ hb := hm.accepts s hmatch hs () hb.1
  settles s hmatch hs := by
    obtain ⟨_, d, hcd, hd, hQ, hP⟩ := hm.settles s hmatch hs
    refine ⟨b, d, hcd, hd, ⟨rfl, hQ⟩, fun b' => ?_⟩
    rw [hP ()]
    simp [and_comm]

/-- After an error nothing is accepted. -/
theorem Judges.never (hm : Reads m fun _ _ => False) (hJ : ∀ b, ¬ J b) : Judges carry c m J R where
  accepts _ _ _ b hb := absurd hb (hJ b)
  settles s hmatch hs := ((hm s hs).2 c hmatch).2.elim

theorem reads_fails {m : Lower α} {f : α → Lower γ} (hm : Reads m fun _ _ => False)
    (hhonest : ∀ a, Honest (f a)) : Reads (m >>= f) fun _ _ => False := by
  intro s hs
  obtain ⟨hclean, hnever⟩ := hm s (hhonest _ _ hs)
  exact ⟨hclean, fun c hc => (hnever c hc).2.elim⟩

end Rules

/-! ## Scopes of sites -/

theorem declared_congr {p q : Program} {vs : List ValueId}
    (h : ∀ v ∈ vs, q.value v = p.value v) : q.declared vs = p.declared vs := by
  rw [Program.declared, Program.declared]
  rw [Program.entries_congr fun v hv => congrArg Value.name (h v hv)]
  refine List.map_congr_left fun e he => ?_
  obtain ⟨v, hv, he⟩ := List.mem_filterMap.1 he
  obtain ⟨n, -, rfl⟩ := Option.map_eq_some_iff.1 he
  exact congrArg (Prod.mk n) (congrArg Value.type (h v (List.mem_reverse.1 hv)))

/-- What is defined at sites stays as it is while their blocks are left alone. -/
theorem scopes_keep {c d : Construction} (hc : Sound c) (hcd : Steps c d) {e : Option BlockId}
    (hother : Untouched c.program d.program e) (sites : List Site)
    (hsites : ∀ s ∈ sites, s ∈ c.sites ∧ e ≠ some s.block) :
    sites.map (Site.scope d.program) = sites.map (Site.scope c.program) := by
  refine List.map_congr_left fun s hs => ?_
  obtain ⟨hs, he⟩ := hsites s hs
  have hgrow := hc.grows hcd
  have hlt := hc.site_lt hs
  rw [Site.scope, Site.scope, hgrow.locals hc.linked (hgrow.args _ hlt) (hother _ hlt he)]
  rw [declared_congr fun v hv => hgrow.value v (Program.lt_of_mem_locals hc.linked hv)]

theorem scopes_keep_all {c d : Construction} (hc : Sound c) (hcd : Steps c d)
    (hother : Untouched c.program d.program none) (sites : List Site)
    (hsites : ∀ s ∈ sites, s ∈ c.sites) :
    sites.map (Site.scope d.program) = sites.map (Site.scope c.program) :=
  scopes_keep hc hcd hother sites fun s hs => ⟨hsites s hs, (Option.some_ne_none _).symm⟩

/-- New values of a block are defined in its scope. -/
theorem scope_define {p q : Program} {s : Site} {names : List Source.Name} {vs : List ValueId}
    (hlocals : q.locals s.block = p.locals s.block ++ vs)
    (hold : ∀ v ∈ p.locals s.block, q.value v = p.value v)
    (hnew : q.entries vs = ((names.zip vs).map fun e => (e.1.text, e.2)).reverse) :
    s.scope q = (s.scope p).define names (vs.map q.valueType) := by
  have hdeclared : q.declared vs =
      ((names.zip (vs.map q.valueType)).map fun e => (e.1.text, e.2)).reverse := by
    rw [Program.declared, hnew, List.zip_map_right, List.map_reverse, List.map_map, List.map_map]
    rfl
  have happend : q.declared (p.locals s.block ++ vs) =
      q.declared vs ++ q.declared (p.locals s.block) := by
    rw [Program.declared, Program.entries_append, List.map_append]
    rfl
  rw [Site.scope, hlocals, happend, declared_congr hold, hdeclared]
  rfl

theorem Matches.distinct_scope {t : State} {c : Construction} (hmatch : Matches t c) {s : Site}
    {outer : List Site} (hsites : c.sites = s :: outer) : (s.scope c.program).Distinct := by
  have hframes := hmatch.frames
  rw [hsites] at hframes
  obtain ⟨f, frames, hf, -, -⟩ := List.forall₂_cons_right_iff.1 hframes
  exact hf.distinct_scope

/-! ## Adding an operation -/

section Add

variable {p : Program} {s : Site} {outer : List Site} {spec : OpSpec}

/-- The only loop that is added is the operation itself. -/
theorem newLoops_appendOp (h : Sound ⟨p, s :: outer⟩) (hfits : Fits p s outer spec) :
    NewLoops carry p (p.appendOp s.block spec).2 ↔
      (spec.offer p (spec.results.map (·.2))).Allowed carry := by
  have hnew : (p.appendOp s.block spec).2.op ⟨p.ops.size⟩ = p.newOp s.block spec := by
    rw [Program.op_appendOp, if_pos rfl]
  have hkind : (p.appendOp s.block spec).2.kind ⟨p.ops.size⟩ = spec.kind := by
    rw [Program.kind, hnew]
    rfl
  have hloops : NewLoops carry p (p.appendOp s.block spec).2 ↔
      (p.appendOp s.block spec).2.YieldsBy carry ⟨p.ops.size⟩ := by
    refine ⟨fun h => h ⟨p.ops.size⟩ (Nat.le_refl _) (by simp), ?_⟩
    rintro h ⟨i⟩ hlow hhigh
    rw [Program.size_ops_appendOp] at hhigh
    obtain rfl : i = p.ops.size := by simp only at hlow hhigh; omega
    exact h
  rw [hloops, Program.YieldsBy, hkind, hnew]
  simp only [Program.newOp, Program.types_newResults]
  cases hloop : spec.kind with
  | loop kind =>
    have hlen : spec.regions.length = 1 := by
      rw [hfits.regions, List.length_map, ← List.length_map (f := Prod.fst), ← hfits.bodies, hloop]
      rfl
    obtain ⟨b, hb⟩ := List.length_eq_one_iff.1 hlen
    have hsignature := h.signature_body hfits (hb ▸ List.mem_cons_self)
    simp [OpSpec.offer, hloop, hb, hsignature, OpKind.isLoop]
  | _ => simp [OpSpec.offer, hloop, OpKind.isLoop]

/-- What the site's block hands over now. -/
def HandsOver (p : Program) (b : BlockId) (handed : Option (List ValueType)) : Prop :=
  (p.signature b).yields = handed.getD [] ∧ (p.terminator? b).isSome = handed.isSome

theorem handsOver_appendOp (h : Sound ⟨p, s :: outer⟩) (hfits : Fits p s outer spec)
    (results : List ValueType) :
    HandsOver (p.appendOp s.block spec).2 s.block (spec.offer p results).handed := by
  have hfree := h.free hfits
  have hnew : (p.appendOp s.block spec).2.op ⟨p.ops.size⟩ = p.newOp s.block spec := by
    rw [Program.op_appendOp, if_pos rfl]
  have hkind : (p.appendOp s.block spec).2.kind ⟨p.ops.size⟩ = spec.kind := by
    rw [Program.kind, hnew]
    rfl
  have hlast : (p.appendOp s.block spec).2.terminator? s.block =
      if spec.kind.isTerminator then some ⟨p.ops.size⟩ else none := by
    rw [Program.terminator?, hfree.block_appendOp, if_pos rfl, List.getLast?_concat,
      Option.filter_some, hkind]
  have htypes : spec.operands.map (p.appendOp s.block spec).2.valueType =
      spec.operands.map p.valueType := hfree.grows.map_valueType fun v hv =>
    (hfits.known v (List.mem_append_left _ hv)).lt h.linked
  rw [HandsOver, Program.signature, hlast]
  cases hterm : spec.kind <;>
    simp [OpSpec.offer, hterm, OpKind.isTerminator, hnew, Program.newOp, htypes]

theorem results_offer (p : Program) (spec : OpSpec) (results : List ValueType) :
    (spec.offer p results).results = results := by
  unfold OpSpec.offer
  split <;> rfl

/-- The names in front of the operation are defined, if there are any. -/
theorem judges_addNamed (carry : Carry) {c : Construction} (hc : Sound c)
    (hsites : c.sites = s :: outer) (names : List Source.Name) (named : Prop) [Decidable named]
    (spec : OpSpec)
    (hnames : spec.results.map (·.1) =
      if named then names.map fun n => some n.text else spec.results.map fun _ => none)
    (hfits : ((c.program.locals s.block).filterMap c.program.givenName? ++
      spec.results.filterMap (·.1)).Nodup → Fits c.program s outer spec)
    {e : Offer} (he : spec.offer c.program (spec.results.map (·.2)) = e) :
    Judges carry c (addNamed s.block names named spec)
      (fun _ : Unit => e.Allowed carry ∧
        ((s.scope c.program).define (if named then names else []) e.results).Distinct)
      fun _ _ q => s.scope q = (s.scope c.program).define (if named then names else []) e.results ∧
        HandsOver q s.block e.handed := by
  obtain ⟨p, sites⟩ := c
  obtain rfl : sites = s :: outer := hsites
  have hresults : e.results = (p.newResults spec).map (p.appendOp s.block spec).2.valueType := by
    rw [← he, results_offer, Program.types_newResults]
  have hzip : (if named then names.zip (p.newResults spec) else []) =
      (if named then names else []).zip (p.newResults spec) := by split <;> rfl
  have hentries := entries_newResults p s.block names named hnames
  rw [hzip] at hentries
  constructor
  case accepts =>
    rintro ⟨q, frames, ds⟩ hmatch hs _ ⟨-, hdistinct⟩
    obtain rfl : q = p := hmatch.program
    obtain ⟨f, frames, hf, -, rfl⟩ := List.forall₂_cons_right_iff.1 hmatch.frames
    rw [run_addNamed, hzip]
    refine clean_defines _ _ _ hs ?_
    rw [hresults, Source.Scope.Distinct, Source.Scope.keys_define, hf.scope_eq] at hdistinct
    rwa [List.map_map] at hdistinct
  case settles =>
    intro t hmatch hclean
    obtain ⟨d, hcd, hmatch', hfits, rfl⟩ :=
      takes_addNamed hc rfl names named spec hnames hfits t hmatch hclean
    have hfree := hc.free hfits
    have hscope : s.scope (p.appendOp s.block spec).2 =
        (s.scope p).define (if named then names else []) e.results := by
      rw [hresults]
      exact scope_define (hfree.locals_appendOp hc.linked)
        (fun v hv => hfree.grows.value v (Program.lt_of_mem_locals hc.linked hv)) hentries
    obtain ⟨f, frames, hf, -, -⟩ := List.forall₂_cons_right_iff.1 hmatch'.frames
    refine ⟨(), _, hcd, hmatch'.program.symm, ⟨hscope, ?_⟩, fun _ => ?_⟩
    · rw [← he]
      exact handsOver_appendOp hc hfits _
    · rw [newLoops_appendOp hc hfits, ← hscope, he]
      exact ⟨fun h => ⟨rfl, h.1⟩, fun h => ⟨h.2, hf.distinct_scope⟩⟩

theorem judges_addOp (carry : Carry) {c : Construction} (hc : Sound c)
    (hsites : c.sites = s :: outer) (stmt : Source.Stmt) {types : List ValueType}
    (h : Prepared c s spec types) (hstands : Stands s.region spec.kind)
    (hunended : c.program.terminator? s.block = none) {e : Offer}
    (he : spec.offer c.program types = e) :
    Judges carry c (addOp s.block stmt spec types)
      (fun _ : Unit => e.Allowed carry ∧
        (stmt.results = [] ∨ stmt.results.length = e.results.length) ∧
        ((s.scope c.program).define stmt.results e.results).Distinct)
      fun _ _ q => s.scope q = (s.scope c.program).define stmt.results e.results ∧
        HandsOver q s.block e.handed := by
  have hresults : e.results = types := by rw [← he, results_offer]
  have hlen := length_resultNames stmt types
  obtain ⟨message, heq⟩ := addOp_eq s.block stmt spec types
  rw [heq]
  split
  · next hcount =>
    have hcount : stmt.results.length = types.length ∨ stmt.results = [] := by
      simpa [List.isEmpty_iff] using hcount
    have hnames : (if stmt.results.length = types.length then stmt.results else []) =
        stmt.results := by
      split
      · rfl
      · next hnot => exact (hcount.resolve_left hnot).symm
    have hadd := judges_addNamed carry hc hsites stmt.results
      (stmt.results.length = types.length)
      { spec with results := (resultNames stmt types).zip types, span := stmt.span }
      (names_resultNames stmt types)
      (fun hfresh => h.fits hsites hstands hunended hlen hfresh stmt.span) (e := e) ?_
    · rw [hnames] at hadd
      refine hadd.congr fun _ => ?_
      rw [hresults, and_iff_right hcount.symm]
    · rw [List.map_snd_zip (Nat.le_of_eq hlen.symm), ← he]
      rfl
  · next hcount =>
    refine .never (reads_fails (reads_error _ _ _ _) fun _ => honest_addNamed _ _ _ _)
      fun _ h => hcount ?_
    rw [hresults] at h
    simpa [List.isEmpty_iff, or_comm] using h.2.1

end Add

end Lowering

end AsyncOrder
