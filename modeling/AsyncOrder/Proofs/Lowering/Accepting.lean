import AsyncOrder.Proofs.Lowering.Judging

/-!
# What is accepted

Lowering reports no error exactly if the module is typed:

    (lower m).hasErrors = false ↔ m.Typed .any                               (lower_accepts_iff)

Statement by statement what is added is judged by the rules, one case for each operation; bodies
are judged where they are entered, with what is defined around them.
-/

namespace AsyncOrder

open Source (Carry BlockTyped)

namespace Lowering

variable {α β : Type} {carry : Carry}

/-! ## Bodies -/

/-- An open body may be closed unless it had to yield. -/
theorem judges_closeBody {c : Construction} {s : Site} {outer : List Site} (hc : Sound c)
    (hsites : c.sites = s :: outer) (hbodies : s.bodies = []) (hregion : s.region ≠ .func)
    (span : Span) : Judges carry c (closeBody s.block s.region span)
      (fun _ : Unit => s.region = .loop ∨ s.region = .branch →
        (c.program.terminator? s.block).isSome = true)
      fun _ _ q => (q.signature s.block).yields = (c.program.signature s.block).yields := by
  refine Judges.get fun t hmatch => ?_
  rw [hmatch.program]
  have hdistinct := hmatch.distinct_scope hsites
  split
  · next hnone =>
    have hunended := Option.isNone_iff_eq_none.1 hnone
    have hempty : (c.program.signature s.block).yields = [] := by
      rw [Program.signature, hunended]
      rfl
    rw [hempty]
    cases hr : s.region with
    | func => exact absurd hr hregion
    | compute =>
      have hfits := fits_terminator outer hbodies hunended .yield rfl (Or.inl hr) ⟨rfl, rfl⟩
      have hadd := judges_addNamed carry hc hsites [] False { kind := .yield }
        rfl hfits rfl
      refine (hadd.congr fun _ => ?_).mono fun _ _ q h => h.2.1
      exact iff_of_true (by simp) ⟨Offer.allowed_none _ _ _, hdistinct⟩
    | hierarchy =>
      have hfits := fits_terminator outer hbodies hunended .finish rfl hr ⟨rfl, rfl, rfl⟩
      have hadd := judges_addNamed carry hc hsites [] False { kind := .finish }
        rfl hfits rfl
      refine (hadd.congr fun _ => ?_).mono fun _ _ q h => h.2.1
      exact iff_of_true (by simp) ⟨Offer.allowed_none _ _ _, hdistinct⟩
    | loop => exact .never (reads_error _ _ _ _) fun _ h => by simp [hunended] at h
    | branch => exact .never (reads_error _ _ _ _) fun _ h => by simp [hunended] at h
  · next hsome =>
    refine ((Tells.pure (b := ()) (R := fun _ _ => True) trivial).judges.congr fun _ => ?_).mono
      fun _ _ q h => by rw [h.1]
    exact iff_of_true (fun _ => by simpa [Option.isSome_iff_ne_none] using hsome) rfl

theorem Opens.judges_openSite (carry : Carry) {p : Program}
    {args : List (Option String × ValueType)} {step : Program → BlockId × Program}
    (h : Opens p args step) {sites : List Site} (hc : Sound ⟨p, sites⟩) (region : Region)
    {names : List Source.Name}
    (hnames : args.map (·.1) = names.map fun n => some n.text)
    (hstep : (args.filterMap (·.1)).Nodup → Step ⟨p, sites⟩
      ⟨(step p).2, ⟨(step p).1, region, []⟩ :: sites⟩) :
    Judges carry ⟨p, sites⟩ (openSite step (decide (region = .hierarchy)) names)
      (fun _ : Unit =>
        (Source.Scope.ofArgs (decide (region = .hierarchy)) names (args.map (·.2))).Distinct)
      fun _ b q => (⟨b, region, []⟩ : Site).scope q =
        .ofArgs (decide (region = .hierarchy)) names (args.map (·.2)) := by
  constructor
  case accepts =>
    rintro ⟨q, frames, ds⟩ hmatch hs _ hdistinct
    obtain rfl : q = p := hmatch.program
    rw [h.run_openSite]
    refine clean_defines _ _ _ hs ?_
    rw [← h.types_new, Source.Scope.ofArgs, Source.Scope.Distinct] at hdistinct
    rwa [Source.Scope.keys_define] at hdistinct
  case settles =>
    intro t hmatch hclean
    obtain ⟨d, hcd, hmatch', hb, rfl⟩ := h.builds_openSite hc hnames hstep t hmatch hclean
    have hempty := locals_of_no_block p
    have hscope : (⟨⟨p.blocks.size⟩, region, []⟩ : Site).scope (step p).2 =
        .ofArgs (decide (region = .hierarchy)) names (args.map (·.2)) := by
      have hold : (⟨⟨p.blocks.size⟩, region, []⟩ : Site).scope p =
          ⟨[], decide (region = .hierarchy)⟩ := by
        rw [Site.scope, hempty]
        rfl
      rw [Source.Scope.ofArgs, ← hold, ← h.types_new]
      refine scope_define ?_ (by simp [hempty]) (entries_of_names (h.names_new.trans hnames))
      rw [hempty, h.locals_new, List.nil_append]
    obtain ⟨f, frames, hf, -, -⟩ := List.forall₂_cons_right_iff.1 hmatch'.frames
    refine ⟨(), _, hcd, hmatch'.program.symm, ?_, fun _ => ?_⟩
    · rw [hb]
      exact hscope
    · rw [hb] at hf
      refine iff_of_true (hscope ▸ hf.distinct_scope) ⟨rfl, newLoops_of_size h.size_ops⟩

/-- What a filled body yields, if it may at all. -/
def Ended (region : Region) (b : BlockId) (ys : Option (List ValueType)) (p : Program) : Prop :=
  region ≠ .hierarchy → HandsOver p b ys

/-- Whatever body of its kind they stand in, statements are judged by the rules for blocks. -/
def JudgesBody (carry : Carry) (region : Region) (stmts : List Source.Stmt) : Prop :=
  ∀ b d outer, Sound d → d.sites = ⟨b, region, []⟩ :: outer → d.program.terminator? b = none →
    Judges carry d (lowerStmts b region stmts)
      (BlockTyped carry region (Site.scope d.program ⟨b, region, []⟩)
        (outer.map (Site.scope d.program)) stmts)
      fun ys _ q => Ended region b ys q

theorem judges_leave {c : Construction} (a : α) {b : β} {R : β → α → Program → Prop}
    (h : R b a c.program) : Judges carry c (do leave; return a) (· = b) R where
  accepts _ _ hs _ _ := hs
  settles _ hmatch _ := ⟨b, c, .refl, hmatch.program.symm, h,
    fun _ => (and_iff_left (newLoops_of_size rfl)).symm⟩

theorem judges_inside {p : Program} {s : Site} {outer : List Site} (hc : Sound ⟨p, s :: outer⟩)
    (hbodies : s.bodies = []) (hregion : s.region ≠ .func) (span : Span)
    {fill : BlockId → Lower Unit} (hfill : Fills ⟨p, s :: outer⟩ s.block (fill s.block))
    {J : Option (List ValueType) → Prop} (hjudge : Judges carry ⟨p, s :: outer⟩ (fill s.block) J
      fun ys _ q => Ended s.region s.block ys q) :
    Judges carry ⟨p, s :: outer⟩ (inside s.region span fill s.block)
      (fun ys => J ys ∧ (s.region = .loop ∨ s.region = .branch → ys.isSome = true))
      fun ys b q => s.region ≠ .hierarchy → (q.signature b).yields = ys.getD [] := by
  refine hjudge.bind hc hfill (fun _ => ?_)
    (fun ys zs => (s.region = .loop ∨ s.region = .branch → ys.isSome = true) ∧ zs = ys) ?_
    fun _ => ?_
  · exact Honest.bind (honest_closeBody _ _ span) fun _ => honest_leave _
  · rintro ys _ d hcd ⟨hdsites, -⟩ hended
    have hd := hc.steps hcd
    refine (judges_closeBody hd hdsites hbodies hregion span).bind hd
      (builds_closeBody hd hdsites hbodies hregion span) (fun _ => honest_leave _)
      (fun _ zs => zs = ys) ?_ fun zs => ?_
    · rintro - _ e - - hclosed
      exact judges_leave _ fun hr => hclosed.trans (hended hr).1
    · have hsame : (s.region = .loop ∨ s.region = .branch → ys.isSome = true) ↔
          (s.region = .loop ∨ s.region = .branch →
            (d.program.terminator? s.block).isSome = true) := by
        refine imp_congr_right fun hr => ?_
        rw [(hended (by rcases hr with hr | hr <;> simp [hr])).2]
      rw [hsame]
      simp
  · simp

/-- A body is judged where its names are new and what it has to hold stands in it. -/
theorem judges_inRegion {c : Construction} {s : Site} {outer : List Site} (hc : Sound c)
    (hsites : c.sites = s :: outer) {region : Region} (hregion : region ≠ .func)
    (args : List (Source.Name × ValueType)) (span : Span) {stmts : List Source.Stmt}
    (hbody : JudgesBody carry region stmts) :
    Judges carry c (inRegion region args span fun b => lowerStmts b region stmts)
      (fun ys =>
        (Source.Scope.ofArgs (region = .hierarchy) (args.map (·.1)) (args.map (·.2))).Distinct ∧
        BlockTyped carry region (.ofArgs (region = .hierarchy) (args.map (·.1)) (args.map (·.2)))
          c.context stmts ys ∧
        (region = .loop ∨ region = .branch → ys.isSome = true))
      fun ys b q => region ≠ .hierarchy → (q.signature b).yields = ys.getD [] := by
  have hfill := fillsAll_lowerStmts region stmts
  rw [inRegion_eq]
  obtain ⟨p, sites⟩ := c
  obtain rfl : sites = s :: outer := hsites
  have hnames := names_bodyArgs args
  have hopens := opens_addBlock p (bodyArgs args)
  have henter := hopens.judges_openSite carry hc region hnames fun hargs =>
    .body p s outer region _ hargs hregion
  rw [types_bodyArgs] at henter
  refine henter.bind hc (builds_enter hc rfl hregion _ hnames) (honest_inside _ _ hfill.honest)
    (fun _ ys => BlockTyped carry region
      (.ofArgs (region = .hierarchy) (args.map (·.1)) (args.map (·.2)))
      ((s :: outer).map (Site.scope p)) stmts ys ∧
        (region = .loop ∨ region = .branch → ys.isSome = true)) ?_ fun _ => by
      simp [Construction.context]
  rintro - _ _ hsteps ⟨rfl, rfl⟩ hscope
  have hd := hc.steps hsteps
  have hfilled := hfill.fills _ _ _ hd rfl hopens.terminator?_new
  have hjudged := hbody _ _ _ hd rfl hopens.terminator?_new
  have hcontext : (s :: outer).map (Site.scope (p.addBlock (bodyArgs args)).2) =
      (s :: outer).map (Site.scope p) :=
    scopes_keep_all hc hsteps hopens.untouched _ fun t ht => ht
  rw [hscope, hcontext] at hjudged
  exact judges_inside hd rfl hregion span hfilled hjudged

/-! ## Operations with regions -/

theorem Tells.built {c : Construction} {m : Lower Built} {J : Offer → Prop}
    (hm : Tells c m J (Offered c.program)) : Judges carry c m J fun e r q => Offered q e r :=
  hm.judges.mono fun _ _ _ ⟨hq, h⟩ => hq ▸ h

section Regions

variable {c : Construction} {s : Site} {outer : List Site} (hc : Sound c)
variable (hsites : c.sites = s :: outer)
include hc hsites

theorem judges_compute (span : Span) (deps : List Source.Name) {stmts : List Source.Stmt}
    {bodySpan : Span} (hbody : JudgesBody carry .compute stmts) :
    Judges carry c (buildOp span (.compute deps (.mk stmts bodySpan)))
      ((Source.Op.compute deps (.mk stmts bodySpan)).Offers carry c.context)
      fun e r q => Offered q e r := by
  have hfill := fillsAll_lowerStmts .compute stmts
  rw [buildOp]
  refine (tells_token deps).then (fun r => ?_) (fun _ e => ∃ ys,
    BlockTyped carry .compute (.ofArgs false [] []) c.context stmts ys ∧
      e = .plain (.token :: ys.getD [])) ?_ fun e => ?_
  · split
    · exact (reads_pure _).honest
    · refine Honest.bind (honest_inRegion _ _ _ hfill.honest) fun b => ?_
      exact Honest.bind (reads_yieldedTypes b).honest fun _ => (reads_pure _).honest
  · rintro - _ ⟨ds, rfl, -⟩
    have hregion : Region.compute ≠ .func := by decide
    refine (judges_inRegion hc hsites hregion [] bodySpan hbody).bind hc
      (builds_inRegion hc hsites hregion [] bodySpan hfill) (fun b => ?_)
      (fun ys e => e = .plain (.token :: ys.getD [])) ?_ fun e => ?_
    · exact Honest.bind (reads_yieldedTypes b).honest fun _ => (reads_pure _).honest
    · rintro ys b d - - hyields
      refine Tells.built ((tells_yieldedTypes b).map (fun _ => .plain (.token :: ys.getD [])) ?_
        fun e => by simp)
      rintro - _ rfl
      exact ⟨_, _, rfl, by rw [hyields (by decide)]; rfl⟩
    · simp [Source.Scope.distinct_ofArgs_nil]
  · constructor
    · rintro ⟨_, h, rfl⟩
      cases h with
      | compute hdeps hbody => exact ⟨(), hdeps, _, hbody, rfl⟩
    · rintro ⟨-, hdeps, ys, hbody, rfl⟩
      exact ⟨_, .compute hdeps hbody, rfl⟩

theorem judges_loop (span : Span) (kind : LoopKind) (var lower upper step : Source.Name)
    (carried : List Source.Binding) {stmts : List Source.Stmt} {bodySpan : Span}
    (hbody : JudgesBody carry .loop stmts) :
    Judges carry c (buildOp span (.loop kind var lower upper step carried (.mk stmts bodySpan)))
      ((Source.Op.loop kind var lower upper step carried (.mk stmts bodySpan)).Offers carry
        c.context) fun e r q => Offered q e r := by
  have hfill := fillsAll_lowerStmts .loop stmts
  rw [buildOp]
  refine (tells_loopOperands var lower upper step carried).then (fun r => ?_) (fun ts e => ∃ ys,
    ((Source.Scope.ofArgs false (var :: carried.map (·.inner)) (.index :: ts)).Distinct ∧
      BlockTyped carry .loop (.ofArgs false (var :: carried.map (·.inner)) (.index :: ts)) c.context
        stmts (some ys)) ∧ e = ⟨ts, some ys, none⟩) ?_ fun e => ?_
  · split
    · exact (reads_pure _).honest
    · exact Honest.bind (honest_inRegion _ _ _ hfill.honest) fun b => (reads_pure _).honest
  · rintro ts _ ⟨operands, args, rfl, hnames, htypes⟩
    have hregion : Region.loop ≠ .func := by decide
    refine (judges_inRegion hc hsites hregion args bodySpan hbody).bind hc
      (builds_inRegion hc hsites hregion args bodySpan hfill) (fun b => (reads_pure _).honest)
      (fun ys e => e = ⟨ts, some (ys.getD []), none⟩) ?_ fun e => ?_
    · rintro ys b d - - hyields
      refine Tells.built (Tells.pure ⟨_, _, rfl, ?_⟩)
      rw [List.map_tail, htypes]
      simp [OpSpec.offer, hyields]
    · rw [hnames, htypes]
      constructor
      · rintro ⟨ys, ⟨hargs, hbody⟩, rfl⟩
        exact ⟨some ys, ⟨hargs, hbody, fun _ => rfl⟩, rfl⟩
      · rintro ⟨ys, ⟨hargs, hbody, hsome⟩, rfl⟩
        obtain ⟨ys, rfl⟩ := Option.isSome_iff_exists.1 (hsome (Or.inl rfl))
        exact ⟨ys, ⟨hargs, hbody⟩, rfl⟩
  · constructor
    · rintro ⟨ts, ys, hbounds, hinits, hargs, hbody, rfl⟩
      exact ⟨ts, ⟨hbounds, hinits⟩, ys, ⟨hargs, hbody⟩, rfl⟩
    · rintro ⟨ts, ⟨hbounds, hinits⟩, ys, ⟨hargs, hbody⟩, rfl⟩
      exact ⟨ts, ys, hbounds, hinits, hargs, hbody, rfl⟩

theorem judges_hierarchy (span : Span) (level : Level) (deps ids : List Source.Name)
    (args : List Source.Binding) {stmts : List Source.Stmt} {bodySpan : Span}
    (hbody : JudgesBody carry .hierarchy stmts) :
    Judges carry c (buildOp span (.hierarchy level deps ids args (.mk stmts bodySpan)))
      ((Source.Op.hierarchy level deps ids args (.mk stmts bodySpan)).Offers carry c.context)
      fun e r q => Offered q e r := by
  have hfill := fillsAll_lowerStmts .hierarchy stmts
  rw [buildOp]
  refine (tells_hierarchyOperands deps ids args).then (fun r => ?_) (fun ts e => (∃ ys,
    (Source.Scope.ofArgs true (ids ++ args.map (·.inner))
      (List.replicate ids.length .index ++ ts)).Distinct ∧
      BlockTyped carry .hierarchy (.ofArgs true (ids ++ args.map (·.inner))
        (List.replicate ids.length .index ++ ts)) c.context stmts ys) ∧ e = .plain [.token])
    ?_ fun e => ?_
  · split
    · exact (reads_pure _).honest
    · exact Honest.bind (honest_inRegion _ _ _ hfill.honest) fun _ => (reads_pure _).honest
  · rintro ts _ ⟨ds, vs, params, rfl, hnames, htypes⟩
    have hregion : Region.hierarchy ≠ .func := by decide
    refine (judges_inRegion hc hsites hregion params bodySpan hbody).bind hc
      (builds_inRegion hc hsites hregion params bodySpan hfill) (fun b => (reads_pure _).honest)
      (fun ys e => e = .plain [.token]) ?_ fun e => ?_
    · rintro ys b d - - -
      exact Tells.built (Tells.pure ⟨_, _, rfl, rfl⟩)
    · rw [hnames, htypes]
      simp
  · constructor
    · rintro ⟨_, h, rfl⟩
      cases h with
      | hierarchy hdeps hoperands htoken hargs hbody =>
        exact ⟨_, ⟨hdeps, hoperands, htoken⟩, ⟨_, hargs, hbody⟩, rfl⟩
    · rintro ⟨ts, ⟨hdeps, hoperands, htoken⟩, ⟨ys, hargs, hbody⟩, rfl⟩
      exact ⟨_, .hierarchy hdeps hoperands htoken hargs hbody, rfl⟩

/-- The context is the same when bodies are ready. -/
theorem context_keep {d : Construction} (hcd : Steps c d) {bodies : List (Region × BlockId)}
    (hdsites : d.sites = { s with bodies } :: outer)
    (hother : Untouched c.program d.program none) : d.context = c.context := by
  have hkeep := scopes_keep_all hc hcd hother c.sites fun t ht => ht
  rw [Construction.context, Construction.context, ← hkeep, hsites, hdsites]
  rfl

theorem judges_branch (span : Span) (cond : Source.Name) {thenStmts elseStmts : List Source.Stmt}
    {thenSpan elseSpan : Span} (hbody : JudgesBody carry .branch thenStmts)
    (hbody' : JudgesBody carry .branch elseStmts) :
    Judges carry c (buildOp span (.branch cond (.mk thenStmts thenSpan) (.mk elseStmts elseSpan)))
      ((Source.Op.branch cond (.mk thenStmts thenSpan) (.mk elseStmts elseSpan)).Offers carry
        c.context) fun e r q => Offered q e r := by
  have hbranch : Region.branch ≠ .func := by decide
  have hthen := fillsAll_lowerStmts .branch thenStmts
  have helse := fillsAll_lowerStmts .branch elseStmts
  rw [buildOp_branch]
  refine (tells_resolve .index cond).forget.then (fun r => ?_) (fun _ e => ∃ ts,
    BlockTyped carry .branch (.ofArgs false [] []) c.context thenStmts (some ts) ∧
    BlockTyped carry .branch (.ofArgs false [] []) c.context elseStmts (some ts) ∧
      e = .plain ts) ?_ fun e => ?_
  · split
    · exact (reads_pure _).honest
    · refine Honest.bind (honest_inRegion _ _ _ hthen.honest) fun b => ?_
      exact Honest.bind (honest_inRegion _ _ _ helse.honest)
        fun b' => (reads_joinBranches span _ b b').honest
  · rintro - _ ⟨-, v, rfl, -⟩
    refine (judges_inRegion hc hsites hbranch [] thenSpan hbody).bind hc
      (builds_inRegion hc hsites hbranch [] thenSpan hthen) (fun b => ?_)
      (fun ys e => ∃ us, BlockTyped carry .branch (.ofArgs false [] []) c.context elseStmts us ∧
        us.isSome = true ∧ ys.getD [] = us.getD [] ∧ e = .plain (ys.getD [])) ?_ fun e => ?_
    · exact Honest.bind (honest_inRegion _ _ _ helse.honest)
        fun b' => (reads_joinBranches span v b b').honest
    · rintro ys b d hcd ⟨hdsites, -, hother⟩ hyields
      have hd := hc.steps hcd
      have hcontext := context_keep hc hsites hcd hdsites hother
      refine (judges_inRegion hd hdsites hbranch [] elseSpan hbody').bind hd
        (builds_inRegion hd hdsites hbranch [] elseSpan helse)
        (fun b' => (reads_joinBranches span v b b').honest)
        (fun us e => ys.getD [] = us.getD [] ∧ e = .plain (ys.getD [])) ?_ fun e => ?_
      · rintro us b' x hdx ⟨hxsites, -, hother'⟩ hyields'
        have hsignature := hd.signature_ready hdsites (r := .branch) (b := b) (by simp) hdx hother'
        have hjoin := tells_joinBranches (c := x) span v b b'
        rw [hsignature, hyields (by decide), hyields' (by decide)] at hjoin
        exact hjoin.built
      · rw [hcontext]
        simp [Source.Scope.distinct_ofArgs_nil, and_assoc]
    · constructor
      · rintro ⟨ts, hbody, hbody', rfl⟩
        exact ⟨some ts, ⟨Source.Scope.distinct_ofArgs_nil _, hbody, fun _ => rfl⟩, some ts, hbody',
          rfl, rfl, rfl⟩
      · rintro ⟨ys, ⟨-, hbody, hsome⟩, us, hbody', hsome', hsame, rfl⟩
        obtain ⟨ts, rfl⟩ := Option.isSome_iff_exists.1 (hsome (Or.inr rfl))
        obtain ⟨ts', rfl⟩ := Option.isSome_iff_exists.1 hsome'
        obtain rfl : ts = ts' := hsame
        exact ⟨ts, hbody, hbody', rfl⟩
  · constructor
    · rintro ⟨_, h, rfl⟩
      cases h with
      | branch hcond hbody hbody' => exact ⟨(), ⟨_, hcond⟩, _, hbody, hbody', rfl⟩
    · rintro ⟨-, hcond, ts, hbody, hbody', rfl⟩
      exact ⟨ts, .branch (gives_index_of_exists hcond) hbody hbody', rfl⟩

end Regions

/-! ## Statements -/

section Statements

open Source

variable {Γ : Context} {scope : Scope} {region : Region} {results : List Name} {op : Op}
variable {span : Span} {rest : List Stmt} {ts : List ValueType} {ys : Option (List ValueType)}

/-- What the operation of a statement offers that may be added to a block. -/
def Fitting (carry : Carry) (scope : Scope) (Γ : Context) (results : List Name) (op : Op)
    (e : Offer) : Prop :=
  op.Offers carry (scope :: Γ) e ∧ e.Allowed carry ∧
    (results = [] ∨ results.length = e.results.length) ∧ (scope.define results e.results).Distinct

theorem allowedIn_of_opTyped (h : OpTyped carry Γ op ts) (region : Region) (isLast : Bool) :
    allowedIn region isLast op = true := by
  cases h <;> rfl

theorem allowedIn_of_blockTyped
    (h : BlockTyped carry region scope Γ (.mk results op span :: rest) ys) :
    allowedIn region rest.isEmpty op = true := by
  cases h with
  | yield hregion => rcases hregion with rfl | rfl | rfl <;> rfl
  | finish => rfl
  | cons hop => exact allowedIn_of_opTyped hop _ _

theorem opTyped_iff (hop : allowedIn region false op = true) :
    OpTyped carry Γ op ts ↔
      ∃ e, op.Offers carry Γ e ∧ e.Allowed carry ∧ e.results = ts := by
  cases op
  case yield => exact absurd hop Bool.false_ne_true
  case finish => exact absurd hop Bool.false_ne_true
  case loop kind var lower upper step carried body =>
    obtain ⟨stmts, span⟩ := body
    constructor
    · intro h
      cases h with
      | loop hbounds hinits hargs hbody hcarry =>
        exact ⟨⟨ts, some _, none⟩, ⟨ts, _, hbounds, hinits, hargs, hbody, rfl⟩,
          Offer.allowed_some.2 hcarry, rfl⟩
    · rintro ⟨_, ⟨ts, ys, hbounds, hinits, hargs, hbody, rfl⟩, hcarry, rfl⟩
      exact .loop hbounds hinits hargs hbody (Offer.allowed_some.1 hcarry)
  all_goals
    constructor
    · intro h
      exact ⟨.plain ts, ⟨ts, h, rfl⟩, Offer.allowed_none _ _ _, rfl⟩
    · rintro ⟨_, ⟨ts, h, rfl⟩, -, rfl⟩
      exact h

theorem blockTyped_cons_iff (hop : allowedIn region false op = true) :
    BlockTyped carry region scope Γ (.mk results op span :: rest) ys ↔
      ∃ e, Fitting carry scope Γ results op e ∧
        BlockTyped carry region (scope.define results e.results) Γ rest ys := by
  constructor
  · intro h
    cases h with
    | yield => exact absurd hop Bool.false_ne_true
    | finish => exact absurd hop Bool.false_ne_true
    | cons htyped hresults hnames hrest =>
      obtain ⟨e, hoffers, hcarry, rfl⟩ := (opTyped_iff hop).1 htyped
      exact ⟨e, ⟨hoffers, hcarry, hresults, hnames⟩, hrest⟩
  · rintro ⟨e, ⟨hoffers, hcarry, hresults, hnames⟩, hrest⟩
    exact .cons ((opTyped_iff hop).2 ⟨e, hoffers, hcarry, rfl⟩) hresults hnames hrest

theorem blockTyped_nil_iff : BlockTyped carry region scope Γ [] ys ↔ ys = none := by
  constructor
  · intro h
    cases h
    rfl
  · rintro rfl
    exact .nil region scope Γ

/-- What is known to be yielded when an operation has been the last. -/
def yielded (op : Op) (e : Offer) : Option (List ValueType) :=
  match op with
  | .finish => none
  | _ => e.handed

theorem yielded_eq_none {e : Offer} (hop : allowedIn region false op = true)
    (h : op.Offers carry Γ e) : yielded op e = none := by
  cases op
  case yield => exact absurd hop Bool.false_ne_true
  case finish => exact absurd hop Bool.false_ne_true
  case loop kind var lower upper step carried body =>
    obtain ⟨stmts, span⟩ := body
    obtain ⟨ts, ys, -, -, -, -, rfl⟩ := h
    rfl
  all_goals
    obtain ⟨ts, -, rfl⟩ := h
    rfl

theorem blockTyped_last_iff (hdistinct : scope.Distinct) (hop : allowedIn region true op = true) :
    BlockTyped carry region scope Γ [.mk results op span] ys ↔
      ∃ e, Fitting carry scope Γ results op e ∧ ys = yielded op e := by
  by_cases hnext : allowedIn region false op = true
  · rw [blockTyped_cons_iff hnext]
    refine exists_congr fun e => and_congr_right fun hfits => ?_
    rw [blockTyped_nil_iff, yielded_eq_none hnext hfits.1]
  · cases op
    case yield values =>
      constructor
      · intro h
        cases h with
        | yield hregion hvalues =>
          exact ⟨_, ⟨⟨_, hvalues, rfl⟩, Offer.allowed_none _ _ _, Or.inl rfl, hdistinct⟩, rfl⟩
        | cons htyped => cases htyped
      · rintro ⟨_, ⟨⟨ts, hvalues, rfl⟩, -, hresults, -⟩, rfl⟩
        obtain rfl : results = [] := by simpa using hresults
        exact .yield (by simpa [allowedIn, or_assoc] using hop) hvalues
    case finish =>
      constructor
      · intro h
        cases h with
        | finish => exact ⟨_, ⟨rfl, Offer.allowed_none _ _ _, Or.inl rfl, hdistinct⟩, rfl⟩
        | cons htyped => cases htyped
      · rintro ⟨_, ⟨rfl, -, hresults, -⟩, rfl⟩
        obtain rfl : results = [] := by simpa using hresults
        obtain rfl : region = .hierarchy := by simpa [allowedIn] using hop
        exact .finish
    all_goals exact absurd rfl hnext

end Statements

section

open Source

mutual

theorem judges_buildOp (span : Span) : (op : Op) → {c : Construction} → {s : Site} →
    {outer : List Site} → Sound c → c.sites = s :: outer →
    Judges carry c (buildOp span op) (op.Offers carry c.context) fun e r q => Offered q e r
  | .const n, _, _, _, _, _ => (tells_flat carry span (.const n) rfl).built
  | .alloc type, _, _, _, _, _ => (tells_flat carry span (.alloc type) rfl).built
  | .dealloc a, _, _, _, _, _ => (tells_flat carry span (.dealloc a) rfl).built
  | .copy a b, _, _, _, _, _ => (tells_flat carry span (.copy a b) rfl).built
  | .transform ins outs, _, _, _, _, _ =>
    (tells_flat carry span (.transform ins outs) rfl).built
  | .muli a b, _, _, _, _, _ => (tells_flat carry span (.muli a b) rfl).built
  | .addi a b, _, _, _, _, _ => (tells_flat carry span (.addi a b) rfl).built
  | .apply args, _, _, _, _, _ => (tells_flat carry span (.apply args) rfl).built
  | .yield values, _, _, _, _, _ => (tells_flat carry span (.yield values) rfl).built
  | .finish, _, _, _, _, _ => (tells_flat carry span .finish rfl).built
  | .join deps, _, _, _, _, _ => (tells_flat carry span (.join deps) rfl).built
  | .transfer deps dst src, _, _, _, _, _ =>
    (tells_flat carry span (.transfer deps dst src) rfl).built
  | .put channel deps src, _, _, _, _, _ =>
    (tells_flat carry span (.put channel deps src) rfl).built
  | .get channel deps dst, _, _, _, _, _ =>
    (tells_flat carry span (.get channel deps dst) rfl).built
  | .compute deps (.mk stmts bodySpan), _, _, _, hc, hsites =>
    judges_compute hc hsites span deps
      fun b d outer hd hs ht => judges_lowerStmts stmts hd hs rfl ht
  | .loop kind var lower upper step carried (.mk stmts bodySpan), _, _, _, hc, hsites =>
    judges_loop hc hsites span kind var lower upper step carried
      fun b d outer hd hs ht => judges_lowerStmts stmts hd hs rfl ht
  | .branch cond (.mk thenStmts thenSpan) (.mk elseStmts elseSpan), _, _, _, hc, hsites =>
    judges_branch hc hsites span cond
      (fun b d outer hd hs ht => judges_lowerStmts thenStmts hd hs rfl ht)
      fun b d outer hd hs ht => judges_lowerStmts elseStmts hd hs rfl ht
  | .hierarchy level deps ids args (.mk stmts bodySpan), _, _, _, hc, hsites =>
    judges_hierarchy hc hsites span level deps ids args
      fun b d outer hd hs ht => judges_lowerStmts stmts hd hs rfl ht

theorem judges_lowerStmt : (results : List Name) → (op : Op) → (span : Span) →
    {c : Construction} → {s : Site} → {outer : List Site} → Sound c → c.sites = s :: outer →
    s.bodies = [] → c.program.terminator? s.block = none → {isLast : Bool} →
    allowedIn s.region isLast op = true →
    Judges carry c (lowerStmt s.block (.mk results op span))
      (Fitting carry (s.scope c.program) (outer.map (Site.scope c.program)) results op)
      fun e _ q => s.scope q = (s.scope c.program).define results e.results ∧
        HandsOver q s.block e.handed
  | results, op, span, c, s, outer, hc, hsites, hbodies, hopen, isLast, hallowed => by
    rw [lowerStmt]
    refine (judges_buildOp span op hc hsites).bind hc (builds_buildOp span op hc hsites hbodies)
      (fun r => ?_) (fun e e' => (e.Allowed carry ∧
        (results = [] ∨ results.length = e.results.length) ∧
        ((s.scope c.program).define results e.results).Distinct) ∧ e' = e) ?_ fun e => ?_
    · split
      · exact honest_addOp _ _ _ _
      · exact (reads_pure _).honest
    · rintro e _ d hcd ⟨bodies, spec, types, rfl, hdsites, hprepared, hspells, hother⟩
        ⟨_, _, heq, hoffer⟩
      obtain ⟨rfl, rfl⟩ := Prod.mk.inj (Option.some.inj heq)
      have hd := hc.steps hcd
      have hs : s ∈ c.sites := hsites ▸ List.mem_cons_self
      have hdopen : d.program.terminator? s.block = none := by
        rw [hother.terminator?_eq hc hcd (hc.site_lt hs), hopen]
      have hadd := judges_addOp carry hd hdsites ⟨results, op, span⟩ hprepared
        (stands_of_allowedIn hspells hallowed) hdopen hoffer
      have hscope : ({ s with bodies } : Site).scope d.program = s.scope c.program := by
        have hkeep := scopes_keep_all hc hcd hother [s] (by simpa using hs)
        exact (List.cons.inj hkeep).1
      rw [hscope] at hadd
      refine (hadd.only e).mono ?_
      rintro e' _ q ⟨rfl, h⟩
      exact h
    · simp only [Fitting, Construction.context, hsites, List.map_cons]
      simp

theorem judges_lowerStmts : (stmts : List Stmt) → {c : Construction} → {s : Site} →
    {outer : List Site} → Sound c → c.sites = s :: outer → s.bodies = [] →
    c.program.terminator? s.block = none →
    Judges carry c (lowerStmts s.block s.region stmts)
      (BlockTyped carry s.region (s.scope c.program) (outer.map (Site.scope c.program)) stmts)
      fun ys _ q => Ended s.region s.block ys q
  | [], c, s, outer, hc, hsites, hbodies, hopen => by
    rw [lowerStmts]
    have hopened : HandsOver c.program s.block none := by simp [HandsOver, Program.signature, hopen]
    refine ((Tells.pure (b := none) (R := fun ys _ => ys = none) rfl).judges.congr
      fun ys => blockTyped_nil_iff).mono ?_
    rintro ys _ q ⟨rfl, rfl⟩ -
    exact hopened
  | .mk results op span :: rest, c, s, outer, hc, hsites, hbodies, hopen => by
    refine Judges.of_matches fun t hmatch => ?_
    have hdistinct := hmatch.distinct_scope hsites
    rw [lowerStmts]
    simp only
    split
    · next hallowed =>
      have hstmt := judges_lowerStmt results op span hc hsites hbodies hopen hallowed
      have hbuilds := builds_lowerStmt (.mk results op span) hc hsites hbodies hopen hallowed
      cases rest with
      | nil =>
        refine hstmt.bind hc hbuilds (fun _ => honest_lowerStmts s.block s.region [])
          (fun e ys => ys = yielded op e) ?_ fun ys => blockTyped_last_iff hdistinct hallowed
        rintro e _ d - - ⟨-, hhands⟩
        rw [lowerStmts]
        refine (Tells.pure (R := fun ys _ => ys = yielded op e) rfl).judges.mono ?_
        rintro _ _ q ⟨rfl, rfl⟩ hregion
        have hhanded : yielded op e = e.handed := by
          cases op
          case finish => exact absurd (by simpa [allowedIn, Stmt.op] using hallowed) hregion
          all_goals rfl
        exact hhanded ▸ hhands
      | cons stmt rest =>
        refine hstmt.bind hc hbuilds (fun _ => honest_lowerStmts s.block s.region (stmt :: rest))
          (fun e ys => BlockTyped carry s.region ((s.scope c.program).define results e.results)
            (outer.map (Site.scope c.program)) (stmt :: rest) ys) ?_
          fun ys => blockTyped_cons_iff hallowed
        rintro e _ d hcd ⟨hdsites, hother, hnext⟩ ⟨hscope, -⟩
        have hrest := judges_lowerStmts (stmt :: rest) (hc.steps hcd) (hdsites.trans hsites)
          hbodies (hnext rfl)
        have houter : outer.map (Site.scope d.program) = outer.map (Site.scope c.program) := by
          refine scopes_keep hc hcd hother _ fun u hu => ⟨hsites ▸ List.mem_cons_of_mem _ hu, ?_⟩
          have hblocks := hc.distinct
          rw [hsites] at hblocks
          exact fun heq => (List.nodup_cons.1 hblocks).1
            (List.mem_map.2 ⟨u, hu, (Option.some.inj heq).symm⟩)
        rw [hscope, houter] at hrest
        exact hrest
    · next hnot =>
      exact .never (reads_fails (reads_error _ _ _ _) fun _ =>
        honest_lowerStmts s.block s.region rest) fun ys h => hnot (allowedIn_of_blockTyped h)

end

/-! ## Functions and modules -/

theorem eq_none_of_func {scope : Scope} {Γ : Context} {stmts : List Stmt}
    {ys : Option (List ValueType)} (h : BlockTyped carry .func scope Γ stmts ys) : ys = none := by
  induction stmts generalizing scope with
  | nil => exact blockTyped_nil_iff.1 h
  | cons stmt rest ih =>
    cases h with
    | yield hregion => simp at hregion
    | cons _ _ _ hrest => exact ih hrest

theorem tells_closeBody {c : Construction} (b : BlockId) (span : Span) :
    Tells c (closeBody b .func span) (fun _ : Unit => True) fun _ _ => True := by
  refine Tells.get fun s _ => ?_
  have hdone : Tells c (return) (fun _ : Unit => True) (fun _ _ => True) :=
    (Tells.pure (b := ()) trivial).congr fun _ => iff_of_true trivial rfl
  split
  · exact hdone
  · exact hdone

theorem judges_insideFunc (carry : Carry) {p : Program} {b : BlockId}
    (hc : Sound ⟨p, [⟨b, .func, []⟩]⟩) (hopen : p.terminator? b = none) (f : Source.Func) :
    Judges carry ⟨p, [⟨b, .func, []⟩]⟩ (insideFunc f b)
      (fun _ : Unit =>
        BlockTyped carry .func ((⟨b, .func, []⟩ : Site).scope p) [] f.body.stmts none)
      fun _ _ _ => True := by
  refine (judges_lowerStmts f.body.stmts hc rfl rfl hopen).bind hc
    (builds_lowerStmts f.body.stmts hc rfl rfl hopen) (fun _ => ?_) (fun _ _ => True) ?_ fun _ => ?_
  · exact Honest.bind (honest_closeBody b _ _) fun _ s hs => hs
  · rintro ys _ d - - -
    refine (tells_closeBody b f.body.span).then (fun _ s hs => hs) (fun _ _ => True) ?_
      fun _ => by simp
    rintro - _ -
    exact (judges_leave () (b := ()) trivial).congr fun _ => iff_of_true trivial rfl
  · simp only [and_true]
    exact ⟨fun h => ⟨none, h⟩, fun ⟨ys, h⟩ => eq_none_of_func h ▸ h⟩

theorem judges_lowerFunc {p : Program} (hp : Sound ⟨p, []⟩) (f : Source.Func) :
    Judges carry ⟨p, []⟩ (lowerFunc f) (fun _ : Unit => f.Typed carry) fun _ _ _ => True := by
  rw [lowerFunc_eq]
  refine (tells_lowerParams f.params).then (fun params => ?_) (fun ts _ =>
    (Scope.ofArgs false (f.params.map (·.name)) ts).Distinct ∧
      BlockTyped carry .func (.ofArgs false (f.params.map (·.name)) ts) [] f.body.stmts none)
    ?_ fun _ => Iff.rfl
  · exact Honest.bind (honest_openSite _ _ _) fun b => honest_insideFunc f b
  rintro _ params ⟨rfl, hnames⟩
  have hopens := opens_addFunc p f.name.text params
  have henter := hopens.judges_openSite carry hp .func hnames fun hargs =>
    .func p f.name.text params hargs
  refine henter.bind hp (builds_enterFunc hp f.name.text params hnames) (honest_insideFunc f)
    (fun _ _ => BlockTyped carry .func
      (.ofArgs false (f.params.map (·.name)) (params.map (·.2))) [] f.body.stmts none) ?_
    fun _ => by simp
  rintro - _ _ hsteps ⟨rfl, rfl⟩ hscope
  have hinside := judges_insideFunc carry (hp.steps hsteps) hopens.terminator?_new f
  rw [hscope] at hinside
  exact hinside

theorem judges_lowerFuncs (carry : Carry) (funcs : List Source.Func) {p : Program}
    (hp : Sound ⟨p, []⟩) :
    Judges carry ⟨p, []⟩ (funcs.forM lowerFunc)
      (fun _ : Unit => ∀ f ∈ funcs, f.Typed carry) fun _ _ _ => True := by
  induction funcs generalizing p with
  | nil =>
    refine (Tells.pure (b := ()) (R := fun _ _ => True) trivial).judges.congr (fun _ => ?_) |>.mono
      fun _ _ _ _ => trivial
    exact iff_of_true (fun f hf => absurd hf List.not_mem_nil) rfl
  | cons f funcs ih =>
    refine (judges_lowerFunc hp f).bind hp (builds_lowerFunc hp f)
      (fun _ => honest_lowerFuncs funcs) (fun _ _ => ∀ f ∈ funcs, f.Typed carry) ?_ fun _ => ?_
    · rintro - _ ⟨q, sites⟩ hsteps hsites -
      obtain rfl : sites = [] := hsites
      exact ih (hp.steps hsteps)
    · rw [List.forall_mem_cons]
      simp

/-- A module is typed if it is lowered without errors and no loop yields what it may not. -/
theorem typed_iff (m : Module) : m.Typed carry ↔
    (lower m).hasErrors = false ∧ NewLoops carry .empty (lower m).program := by
  have hmatch : Matches ⟨.empty, [], []⟩ ⟨.empty, []⟩ := ⟨rfl, .nil⟩
  have hjudge := judges_lowerFuncs carry m.funcs sound_empty
  constructor
  · intro h
    have hclean := hjudge.accepts _ hmatch rfl () h
    obtain ⟨_, d, -, hprogram, -, hiff⟩ := hjudge.settles _ hmatch hclean
    have hloops := ((hiff ()).1 h).2
    rw [hprogram] at hloops
    exact ⟨hclean, hloops⟩
  · rintro ⟨hclean, hloops⟩
    obtain ⟨_, d, -, hprogram, -, hiff⟩ := hjudge.settles _ hmatch hclean
    rw [hprogram] at hiff
    exact (hiff ()).2 ⟨rfl, hloops⟩

end

end Lowering

open Lowering in
/-- Lowering accepts exactly the typed modules. -/
theorem lower_accepts_iff (m : Source.Module) : (lower m).hasErrors = false ↔ m.Typed .any := by
  rw [typed_iff]
  exact (and_iff_left fun _ _ _ _ _ _ => trivial).symm

end AsyncOrder
