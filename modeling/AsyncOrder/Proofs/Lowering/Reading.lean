import AsyncOrder.Proofs.Lowering.Operands

/-!
# What is read is sound

Statement by statement, lowering takes the steps of a construction.  Hence

    readProgram source = .ok p → Sound ⟨p, []⟩          (sound_of_readProgram)
-/

namespace AsyncOrder.Lowering

/-! ## Blocks left alone -/

/-- No block of `p`, save `except`, lists other operations in `q`. -/
def Untouched (p q : Program) (except : Option BlockId) : Prop :=
  ∀ b, b.index < p.blocks.size → except ≠ some b → (q.block b).ops = (p.block b).ops

theorem Untouched.trans {p q r : Program} {e : Option BlockId} (h : Untouched p q e)
    (hsize : p.blocks.size ≤ q.blocks.size) (h' : Untouched q r e) : Untouched p r e :=
  fun b hb he => (h' b (Nat.lt_of_lt_of_le hb hsize) he).trans (h b hb he)

theorem Untouched.all {p q : Program} (h : Untouched p q none) {b : BlockId}
    (hb : b.index < p.blocks.size) : (q.block b).ops = (p.block b).ops :=
  h b hb (Option.some_ne_none b).symm

theorem Untouched.weaken {p q : Program} (h : Untouched p q none) (e : Option BlockId) :
    Untouched p q e := fun _ hb _ => h.all hb

theorem Untouched.terminator?_eq {c d : Construction} (hc : Sound c) (hcd : Steps c d)
    (h : Untouched c.program d.program none) {b : BlockId}
    (hb : b.index < c.program.blocks.size) :
    d.program.terminator? b = c.program.terminator? b :=
  (hc.grows hcd).terminator?_eq hc.linked (h.all hb)

/-! ## Frames -/

/-- A frame stays good while its block is left alone. -/
theorem FrameAt.keep {p q : Program} (hp : p.Linked) (h : p.Grows q) {frames : List Frame}
    {sites : List Site} (hops : ∀ s ∈ sites, s.block.index < p.blocks.size ∧
      (q.block s.block).ops = (p.block s.block).ops)
    (hf : List.Forall₂ (FrameAt p) frames sites) : List.Forall₂ (FrameAt q) frames sites := by
  induction hf with
  | nil => exact .nil
  | @cons f s frames sites hfs _ ih =>
    rw [List.forall_mem_cons] at hops
    refine .cons ⟨hfs.isolated, ?_, hfs.distinct⟩ (ih hops.2)
    rw [h.locals hp (h.args _ hops.1.1) hops.1.2, hfs.names]
    exact (Program.entries_congr fun v hv => h.givenName? (Program.lt_of_mem_locals hp hv)).symm

theorem honest_define (name : Source.Name) (v : ValueId) : Honest (define name v) := by
  refine Honest.bind reads_get.honest fun s => ?_
  split
  · exact (reads_pure ()).honest
  · refine Honest.bind (fun s hs => hs) fun _ => ?_
    split
    · exact (reads_error _ _ _ fun _ _ => True).honest
    · exact (reads_pure ()).honest

theorem honest_defines (pairs : List (Source.Name × ValueId)) :
    Honest (pairs.forM fun (name, v) => define name v) := by
  induction pairs with
  | nil => exact (reads_pure ()).honest
  | cons e pairs ih => exact Honest.bind (honest_define e.1 e.2) fun _ => ih

theorem honest_defineAll (names : List Source.Name) (vs : List ValueId) :
    Honest (defineAll names vs) := honest_defines _

/-- A definition enters the innermost frame; it is reported if the frame has the name. -/
theorem run_define (name : Source.Name) (v : ValueId) (p : Program) (f : Frame)
    (frames : List Frame) (ds : List Diagnostic) : ∃ es,
      (define name v).run ⟨p, f :: frames, ds⟩ = ((), ⟨p, f.define name.text v :: frames, es⟩) ∧
        (es.any Diagnostic.isError = false ↔
          ds.any Diagnostic.isError = false ∧ name.text ∉ f.names.map (·.1)) := by
  have hrun : (define name v).run ⟨p, f :: frames, ds⟩ =
      ((if (f.names.lookup name.text).isSome then
        error Code.duplicateDefinition name.span
          s!"value '%{name.text}' is defined more than once"
      else pure () : Lower Unit)).run ⟨p, f.define name.text v :: frames, ds⟩ := rfl
  have hlookup : (f.names.lookup name.text).isSome ↔ name.text ∈ f.names.map (·.1) := by
    rw [Option.isSome_iff_ne_none, ne_eq, List.lookup_eq_none_iff, List.mem_map]
    simp only [not_forall, bne_iff_ne, ne_eq, not_not, exists_prop, eq_comm (b := name.text)]
  rw [hrun]
  split
  · next hsome =>
    refine ⟨_, rfl, iff_of_false (fun hclean => ?_) fun h => h.2 (hlookup.1 hsome)⟩
    simp [Diagnostic.errorAt, Diagnostic.isError] at hclean
  · next hnone => exact ⟨ds, rfl, (and_iff_left fun h => hnone (hlookup.2 h)).symm⟩

/-- What is left of a state by definitions in its innermost frame, `f` before and `g` after. -/
structure Defined (f g : Frame) (frames : List Frame) (p : Program)
    (pairs : List (Source.Name × ValueId)) (t : State) : Prop where
  program : t.program = p
  frames : t.frames = g :: frames
  isolated : g.isolated = f.isolated
  names : g.names = (pairs.map fun e => (e.1.text, e.2)).reverse ++ f.names
  distinct : t.Clean → (f.names.map (·.1)).Nodup → (g.names.map (·.1)).Nodup

theorem run_defines (pairs : List (Source.Name × ValueId)) (p : Program) (f : Frame)
    (frames : List Frame) (ds : List Diagnostic) : ∃ g, Defined f g frames p pairs
      ((pairs.forM fun (name, v) => define name v).run ⟨p, f :: frames, ds⟩).2 := by
  induction pairs generalizing f ds with
  | nil => exact ⟨f, rfl, rfl, rfl, rfl, fun _ h => h⟩
  | cons e pairs ih =>
    obtain ⟨es, hrun, hnew⟩ := run_define e.1 e.2 p f frames ds
    obtain ⟨g, hprogram, hframes, hisolated, hnames, hdistinct⟩ := ih (f.define e.1.text e.2) es
    have hstep : (((e :: pairs).forM fun (name, v) => define name v).run ⟨p, f :: frames, ds⟩).2 =
        ((pairs.forM fun (name, v) => define name v).run
          ⟨p, f.define e.1.text e.2 :: frames, es⟩).2 := by
      show ((define e.1 e.2 >>= fun _ => pairs.forM fun (name, v) => define name v).run _).2 = _
      rw [StateT.run_bind, hrun]
      rfl
    rw [hstep]
    refine ⟨g, hprogram, hframes, hisolated, ?_, fun hclean hf => hdistinct hclean ?_⟩
    · rw [hnames, List.map_cons, List.reverse_cons, List.append_assoc]
      rfl
    · exact List.nodup_cons.2 ⟨(hnew.1 (honest_defines pairs _ hclean)).2, hf⟩

/-- Definitions of distinct and new names are not reported. -/
theorem clean_defines (pairs : List (Source.Name × ValueId)) (p : Program) {f : Frame}
    (frames : List Frame) {ds : List Diagnostic} (hds : ds.any Diagnostic.isError = false)
    (hdistinct : ((pairs.map fun e => e.1.text).reverse ++ f.names.map (·.1)).Nodup) :
    ((pairs.forM fun (name, v) => define name v).run ⟨p, f :: frames, ds⟩).2.Clean := by
  induction pairs generalizing f ds with
  | nil => exact hds
  | cons e pairs ih =>
    obtain ⟨es, hrun, hnew⟩ := run_define e.1 e.2 p f frames ds
    rw [List.map_cons, List.reverse_cons, List.append_assoc, List.singleton_append] at hdistinct
    have hnot := (List.nodup_cons.1 (List.nodup_append.1 hdistinct).2.1).1
    show ((define e.1 e.2 >>= fun _ => pairs.forM fun (name, v) => define name v).run _).2.Clean
    rw [StateT.run_bind, hrun]
    exact ih (hnew.2 ⟨hds, hnot⟩) hdistinct

theorem entries_of_names {p : Program} {names : List Source.Name} {vs : List ValueId}
    (h : vs.map p.givenName? = names.map fun n => some n.text) :
    p.entries vs = ((names.zip vs).map fun e => (e.1.text, e.2)).reverse := by
  rw [Program.entries, List.filterMap_reverse]
  congr 1
  induction vs generalizing names with
  | nil => rw [List.zip_nil_right]; rfl
  | cons v vs ih =>
    cases names with
    | nil => cases h
    | cons n names =>
      obtain ⟨hv, h⟩ := List.cons.inj h
      rw [List.filterMap_cons, hv, ih h]
      rfl

/-- Once the names of new values are defined, the frame lists them. -/
theorem FrameAt.defined {p q : Program} {f g : Frame} {s t : Site} {frames : List Frame}
    {pairs : List (Source.Name × ValueId)} {vs : List ValueId} {u : State} (hf : FrameAt p f s)
    (hu : Defined f g frames q pairs u) (hclean : u.Clean) (hregion : t.region = s.region)
    (hlocals : q.locals t.block = p.locals s.block ++ vs)
    (hold : ∀ v ∈ p.locals s.block, q.givenName? v = p.givenName? v)
    (hnew : q.entries vs = (pairs.map fun e => (e.1.text, e.2)).reverse) : FrameAt q g t := by
  refine ⟨by rw [hu.isolated, hf.isolated, hregion], ?_, hu.distinct hclean hf.distinct⟩
  rw [hu.names, hlocals, Program.entries_append, hnew, hf.names, Program.entries_congr hold]

/-- The names of new values are distinct and new to the frame, if that was not reported. -/
theorem Defined.fresh {p q : Program} {f g : Frame} {s : Site} {frames : List Frame}
    {pairs : List (Source.Name × ValueId)} {vs : List ValueId} {u : State}
    (hu : Defined f g frames q pairs u) (hclean : u.Clean) (hf : FrameAt p f s)
    (hnew : q.entries vs = (pairs.map fun e => (e.1.text, e.2)).reverse) :
    ((p.locals s.block).filterMap p.givenName? ++ (vs.map q.givenName?).filterMap id).Nodup := by
  have h := hu.distinct hclean hf.distinct
  rw [hu.names, ← hnew, List.map_append, Program.map_fst_entries, hf.names,
    Program.map_fst_entries, ← List.reverse_append, List.nodup_reverse] at h
  rwa [List.filterMap_map]

/-! ## Adding an operation -/

theorem honest_build {α : Type} (step : Program → α × Program) : Honest (build step) :=
  fun _ hs => hs

theorem untouched_appendOp {p : Program} {b : BlockId} {spec : OpSpec}
    (hfree : p.Free b spec.regions) : Untouched p (p.appendOp b spec).2 (some b) := by
  intro b' _ hne
  rw [hfree.block_appendOp, if_neg fun h => hne (congrArg some h)]

/-- What `buildOp` leaves for `addOp`. -/
structure Prepared (c : Construction) (s : Site) (spec : OpSpec) (types : List ValueType) :
    Prop where
  found : ∀ v ∈ spec.operands ++ spec.deps, ∃ n, Found c.program c.sites n v
  regions : spec.regions = s.bodies.map (·.2)
  bodies : bodyRegions spec.kind = s.bodies.map (·.1)
  layout : spec.kind.Layout (spec.operands.map c.program.valueType)
    (spec.deps.map c.program.valueType) types (spec.regions.map c.program.signature)

theorem Prepared.fits {c : Construction} {s : Site} {outer : List Site} {spec : OpSpec}
    {types : List ValueType} (hsites : c.sites = s :: outer) (h : Prepared c s spec types)
    (hstands : Stands s.region spec.kind) (hunended : c.program.terminator? s.block = none)
    {names : List (Option String)} (hnames : names.length = types.length)
    (hfresh : ((c.program.locals s.block).filterMap c.program.givenName? ++
      (names.zip types).filterMap (·.1)).Nodup) (span : Option Span) :
    Fits c.program s outer { spec with results := names.zip types, span } where
  found v hv := hsites ▸ h.found v hv
  fresh := hfresh
  regions := h.regions
  bodies := h.bodies
  stands := hstands
  unended := hunended
  layout := by
    rw [List.map_snd_zip (Nat.le_of_eq hnames.symm)]
    exact h.layout

theorem isSome_terminator?_appendOp {p : Program} {b : BlockId} {spec : OpSpec}
    (hfree : p.Free b spec.regions) :
    ((p.appendOp b spec).2.terminator? b).isSome = spec.kind.isTerminator := by
  rw [Program.terminator?, hfree.block_appendOp, if_pos rfl, List.getLast?_append]
  have : (p.appendOp b spec).2.kind ⟨p.ops.size⟩ = spec.kind := by
    rw [Program.kind, Program.op_appendOp, if_pos rfl]
    rfl
  cases hkind : spec.kind.isTerminator <;> simp [this, hkind]

/-- After a statement the site is as before, and ended if the statement `ends` it. -/
def Added (c : Construction) (s : Site) (outer : List Site) (ends : Bool) (d : Construction) :
    Prop :=
  d.sites = { s with bodies := [] } :: outer ∧ Untouched c.program d.program (some s.block) ∧
    (d.program.terminator? s.block).isSome = ends

/-- Adds an operation and defines its results, if they have names. -/
def addNamed (b : BlockId) (names : List Source.Name) (named : Prop) [Decidable named]
    (spec : OpSpec) : Lower Unit := do
  let op ← build (·.appendOp b spec)
  if named then defineAll names ((← get).program.op op).results

theorem honest_addNamed (b : BlockId) (names : List Source.Name) (named : Prop)
    [Decidable named] (spec : OpSpec) : Honest (addNamed b names named spec) := by
  refine Honest.bind (honest_build _) fun op => ?_
  split
  · exact Honest.bind reads_get.honest fun _ => honest_defineAll _ _
  · exact (reads_pure ()).honest

theorem run_addNamed (b : BlockId) (names : List Source.Name) (named : Prop) [Decidable named]
    (spec : OpSpec) (p : Program) (frames : List Frame) (ds : List Diagnostic) :
    (addNamed b names named spec).run ⟨p, frames, ds⟩ =
      ((if named then names.zip (p.newResults spec) else []).forM fun (name, v) =>
        define name v).run ⟨(p.appendOp b spec).2, frames, ds⟩ := by
  have hnew : ((p.appendOp b spec).2.op ⟨p.ops.size⟩).results = p.newResults spec := by
    rw [Program.op_appendOp, if_pos rfl]
    rfl
  rw [← hnew]
  unfold addNamed
  split
  · rfl
  · rfl

theorem entries_newResults (p : Program) (b : BlockId) (names : List Source.Name) (named : Prop)
    [Decidable named] {spec : OpSpec} (hnames : spec.results.map (·.1) =
      if named then names.map fun n => some n.text else spec.results.map fun _ => none) :
    (p.appendOp b spec).2.entries (p.newResults spec) =
      ((if named then names.zip (p.newResults spec) else []).map
        fun e => (e.1.text, e.2)).reverse := by
  have hgiven := p.names_newResults (b := b) spec
  rw [hnames] at hgiven
  by_cases hnamed : named
  · rw [if_pos hnamed] at hgiven ⊢
    exact entries_of_names hgiven
  · rw [if_neg hnamed] at hgiven ⊢
    refine List.filterMap_eq_nil_iff.2 fun v hv => ?_
    have hv := List.mem_map_of_mem (f := (p.appendOp b spec).2.givenName?) (List.mem_reverse.1 hv)
    rw [hgiven] at hv
    obtain ⟨-, -, hv⟩ := List.mem_map.1 hv
    rw [← hv]
    rfl

/-- What adding an operation comes to. -/
theorem takes_addNamed {c : Construction} {s : Site} {outer : List Site} (hc : Sound c)
    (hsites : c.sites = s :: outer) (names : List Source.Name) (named : Prop) [Decidable named]
    (spec : OpSpec) (hnames : spec.results.map (·.1) =
      if named then names.map fun n => some n.text else spec.results.map fun _ => none)
    (hfits : ((c.program.locals s.block).filterMap c.program.givenName? ++
      spec.results.filterMap (·.1)).Nodup → Fits c.program s outer spec) :
    Builds c (addNamed s.block names named spec) fun _ d => Fits c.program s outer spec ∧
      d = ⟨(c.program.appendOp s.block spec).2, { s with bodies := [] } :: outer⟩ := by
  intro t hmatch hclean
  obtain ⟨p, frames, ds⟩ := t
  obtain ⟨q, sites⟩ := c
  obtain rfl : p = q := hmatch.program
  obtain rfl : sites = s :: outer := hsites
  obtain ⟨f, frames, hf, hrest, rfl⟩ := List.forall₂_cons_right_iff.1 hmatch.frames
  rw [run_addNamed] at hclean ⊢
  obtain ⟨g, hg⟩ := run_defines (if named then names.zip (p.newResults spec) else [])
    (p.appendOp s.block spec).2 f frames ds
  generalize StateT.run _ _ = r at hclean hg
  have hnew := entries_newResults p s.block names named hnames
  have hfresh := hg.fresh hclean hf hnew
  rw [p.names_newResults, List.filterMap_map] at hfresh
  have hfits := hfits hfresh
  have hfree := hc.free hfits
  refine ⟨_, .single (.op p s outer spec hfits), ⟨hg.program, ?_⟩, hfits, rfl⟩
  rw [hg.frames]
  refine .cons (hf.defined hg hclean rfl (hfree.locals_appendOp hc.linked) (fun v hv => ?_) hnew)
    (FrameAt.keep hc.linked hfree.grows (fun t ht => ?_) hrest)
  · exact hfree.grows.givenName? (Program.lt_of_mem_locals hc.linked hv)
  · have hne : s.block ≠ t.block := fun heq => (List.nodup_cons.1 hc.distinct).1
      (List.mem_map.2 ⟨t, ht, heq.symm⟩)
    refine ⟨hc.site_lt (List.mem_cons_of_mem _ ht), ?_⟩
    rw [hfree.block_appendOp, if_neg hne]

theorem builds_addNamed {c : Construction} {s : Site} {outer : List Site} (hc : Sound c)
    (hsites : c.sites = s :: outer) (names : List Source.Name) (named : Prop) [Decidable named]
    (spec : OpSpec) (hnames : spec.results.map (·.1) =
      if named then names.map fun n => some n.text else spec.results.map fun _ => none)
    (hfits : ((c.program.locals s.block).filterMap c.program.givenName? ++
      spec.results.filterMap (·.1)).Nodup → Fits c.program s outer spec) :
    Builds c (addNamed s.block names named spec) fun _ d =>
      Added c s outer spec.kind.isTerminator d := by
  refine (takes_addNamed hc hsites names named spec hnames hfits).mono ?_
  rintro _ d - ⟨hfits, rfl⟩
  obtain ⟨p, sites⟩ := c
  obtain rfl : sites = s :: outer := hsites
  have hfree := hc.free hfits
  exact ⟨rfl, untouched_appendOp hfree, isSome_terminator?_appendOp hfree⟩

/-- The names that `addOp` gives the results. -/
def resultNames (stmt : Source.Stmt) (types : List ValueType) : List (Option String) :=
  if stmt.results.length = types.length then stmt.results.map fun n => some n.text
  else types.map fun _ => none

theorem length_resultNames (stmt : Source.Stmt) (types : List ValueType) :
    (resultNames stmt types).length = types.length := by
  unfold resultNames
  split
  · next h => rw [List.length_map, h]
  · rw [List.length_map]

theorem names_resultNames (stmt : Source.Stmt) (types : List ValueType) :
    ((resultNames stmt types).zip types).map (·.1) =
      if stmt.results.length = types.length then stmt.results.map fun n => some n.text
      else ((resultNames stmt types).zip types).map fun _ => none := by
  rw [List.map_fst_zip (Nat.le_of_eq (length_resultNames stmt types))]
  by_cases hnamed : stmt.results.length = types.length
  · rw [if_pos hnamed, resultNames, if_pos hnamed]
  · simp [resultNames, hnamed]

theorem addOp_eq (b : BlockId) (stmt : Source.Stmt) (spec : OpSpec) (types : List ValueType) :
    ∃ message, addOp b stmt spec types =
      if (stmt.results.length = types.length || stmt.results.isEmpty) = true then
        addNamed b stmt.results (stmt.results.length = types.length)
          { spec with results := (resultNames stmt types).zip types, span := stmt.span }
      else error Code.resultCount stmt.span message >>= fun _ =>
        addNamed b stmt.results (stmt.results.length = types.length)
          { spec with results := (resultNames stmt types).zip types, span := stmt.span } :=
  ⟨_, rfl⟩

theorem honest_addOp (b : BlockId) (stmt : Source.Stmt) (spec : OpSpec)
    (types : List ValueType) : Honest (addOp b stmt spec types) := by
  obtain ⟨message, heq⟩ := addOp_eq b stmt spec types
  rw [heq]
  split
  · exact honest_addNamed _ _ _ _
  · exact Honest.bind (reads_error _ _ _ fun _ _ => True).honest fun _ => honest_addNamed _ _ _ _

theorem builds_addOp {c : Construction} {s : Site} {outer : List Site} (hc : Sound c)
    (hsites : c.sites = s :: outer) (stmt : Source.Stmt) {spec : OpSpec} {types : List ValueType}
    (h : Prepared c s spec types) (hstands : Stands s.region spec.kind)
    (hunended : c.program.terminator? s.block = none) :
    Builds c (addOp s.block stmt spec types) fun _ d =>
      Added c s outer spec.kind.isTerminator d := by
  obtain ⟨message, heq⟩ := addOp_eq s.block stmt spec types
  rw [heq]
  split
  · exact builds_addNamed hc hsites _ _ _ (names_resultNames stmt types) fun hfresh =>
      h.fits hsites hstands hunended (length_resultNames stmt types) hfresh stmt.span
  · exact Reads.then (reads_error _ _ _ fun _ _ => False) (fun _ => honest_addNamed _ _ _ _)
      fun _ hF => hF.elim

/-! ## Bodies -/

theorem honest_closeBody (b : BlockId) (region : Region) (span : Span) :
    Honest (closeBody b region span) := by
  refine Honest.bind reads_get.honest fun s => ?_
  split
  · cases region
    case func => exact (reads_pure ()).honest
    case compute => exact Honest.bind (honest_build _) fun _ => (reads_pure ()).honest
    case hierarchy => exact Honest.bind (honest_build _) fun _ => (reads_pure ()).honest
    case loop => exact (reads_error _ _ _ fun _ _ => True).honest
    case branch => exact (reads_error _ _ _ fun _ _ => True).honest
  · exact (reads_pure ()).honest

/-- The body has its terminator. -/
def Closed (c : Construction) (s : Site) (d : Construction) : Prop :=
  d.sites = c.sites ∧ Untouched c.program d.program (some s.block) ∧
    (d.program.terminator? s.block).isSome = true

theorem fits_terminator {p : Program} {s : Site} (outer : List Site) (hbodies : s.bodies = [])
    (hunended : p.terminator? s.block = none) (kind : OpKind) (hkind : kind.isTerminator = true)
    (hstands : Stands s.region kind) (hshape : kind.Shape [] [] [])
    (hfresh : ((p.locals s.block).filterMap p.givenName? ++ []).Nodup) :
    Fits p s outer { kind } := by
  refine ⟨fun v hv => absurd hv List.not_mem_nil, hfresh, by rw [hbodies]; rfl, ?_, hstands,
    hunended, fun _ => rfl, fun t ht => absurd ht List.not_mem_nil, hshape⟩
  rw [hbodies]
  cases kind <;> first | rfl | exact Bool.noConfusion hkind

theorem builds_terminator {c : Construction} {s : Site} {outer : List Site} (hc : Sound c)
    (hsites : c.sites = s :: outer) (hbodies : s.bodies = [])
    (hunended : c.program.terminator? s.block = none) {kind : OpKind}
    (hkind : kind.isTerminator = true) (hstands : Stands s.region kind)
    (hshape : kind.Shape [] [] []) :
    Builds c (do let _ ← build (·.appendOp s.block { kind }); return ()) fun _ d =>
      Closed c s d := by
  have hfits := fits_terminator outer hbodies hunended kind hkind hstands hshape
  refine (builds_addNamed hc hsites [] False { kind } rfl hfits).mono ?_
  rintro _ d - ⟨hdsites, hother, hends⟩
  refine ⟨?_, hother, hends.trans hkind⟩
  obtain ⟨b, region, bodies⟩ := s
  obtain rfl : bodies = [] := hbodies
  exact hdsites.trans hsites.symm

theorem builds_closeBody {c : Construction} {s : Site} {outer : List Site} (hc : Sound c)
    (hsites : c.sites = s :: outer) (hbodies : s.bodies = []) (hregion : s.region ≠ .func)
    (span : Span) : Builds c (closeBody s.block s.region span) fun _ d => Closed c s d := by
  refine Reads.then reads_get (fun t => ?_) fun t ht => ?_
  · split
    · cases s.region
      case func => exact (reads_pure ()).honest
      case compute => exact Honest.bind (honest_build _) fun _ => (reads_pure ()).honest
      case hierarchy => exact Honest.bind (honest_build _) fun _ => (reads_pure ()).honest
      case loop => exact (reads_error _ _ _ fun _ _ => True).honest
      case branch => exact (reads_error _ _ _ fun _ _ => True).honest
    · exact (reads_pure ()).honest
  · rw [ht.program]
    split
    · next hnone =>
      have hunended := Option.isNone_iff_eq_none.1 hnone
      cases hr : s.region with
      | func => exact absurd hr hregion
      | compute =>
        exact builds_terminator hc hsites hbodies hunended rfl (Or.inl hr) ⟨rfl, rfl⟩
      | hierarchy => exact builds_terminator hc hsites hbodies hunended rfl hr ⟨rfl, rfl, rfl⟩
      | loop =>
        exact (reads_error _ _ _ fun _ _ => False).builds.mono fun _ _ _ hF => hF.2.elim
      | branch =>
        exact (reads_error _ _ _ fun _ _ => False).builds.mono fun _ _ _ hF => hF.2.elim
    · next hsome =>
      refine (reads_pure ()).builds.mono ?_
      rintro _ d - ⟨rfl, -⟩
      exact ⟨rfl, fun _ _ _ => rfl, by simpa [Option.isSome_iff_ne_none] using hsome⟩

/-- Opens a site: adds a block and defines its arguments in a frame of its own. -/
def openSite (step : Program → BlockId × Program) (isolated : Bool) (names : List Source.Name) :
    Lower BlockId := do
  let b ← build step
  modify fun s => { s with frames := ⟨[], isolated⟩ :: s.frames }
  defineAll names ((← get).program.block b).args
  return b

theorem honest_openSite (step : Program → BlockId × Program) (isolated : Bool)
    (names : List Source.Name) : Honest (openSite step isolated names) := by
  refine Honest.bind (honest_build _) fun b => Honest.bind (fun s hs => hs) fun _ => ?_
  refine Honest.bind reads_get.honest fun _ => Honest.bind (honest_defineAll _ _) fun _ => ?_
  exact (reads_pure b).honest

/-- What is added for a site is a block with the given arguments. -/
structure Opens (p : Program) (args : List (Option String × ValueType))
    (step : Program → BlockId × Program) : Prop where
  index : (step p).1 = ⟨p.blocks.size⟩
  grows : p.Grows (step p).2
  size_ops : (step p).2.ops.size = p.ops.size
  block : ∀ b, (step p).2.block b = (p.addBlock args).2.block b
  value : ∀ v, (step p).2.value v = (p.addBlock args).2.value v

theorem opens_addBlock (p : Program) (args : List (Option String × ValueType)) :
    Opens p args (·.addBlock args) :=
  ⟨rfl, Program.grows_addBlock args, rfl, fun _ => rfl, fun _ => rfl⟩

theorem opens_addFunc (p : Program) (name : String) (args : List (Option String × ValueType)) :
    Opens p args (·.addFunc name args) :=
  ⟨rfl, Program.grows_addFunc name args, rfl, fun _ => rfl, fun _ => rfl⟩

theorem locals_of_no_block (p : Program) : p.locals ⟨p.blocks.size⟩ = [] := by
  rw [Program.locals, Program.block_of_size_le (b := ⟨p.blocks.size⟩) (Nat.le_refl _)]
  rfl

namespace Opens

variable {p : Program} {args : List (Option String × ValueType)}
variable {step : Program → BlockId × Program} (h : Opens p args step)
include h

theorem locals_new :
    (step p).2.locals ⟨p.blocks.size⟩ = ((step p).2.block ⟨p.blocks.size⟩).args := by
  have hnew := h.block ⟨p.blocks.size⟩
  rw [Program.block_addBlock, if_pos rfl] at hnew
  rw [Program.locals, hnew]
  exact List.append_nil _

theorem names_new :
    ((step p).2.block ⟨p.blocks.size⟩).args.map (step p).2.givenName? = args.map (·.1) := by
  rw [← p.names_addBlock args, h.block]
  exact List.map_congr_left fun v _ => congrArg Value.name (h.value v)

theorem types_new :
    ((step p).2.block ⟨p.blocks.size⟩).args.map (step p).2.valueType = args.map (·.2) := by
  rw [← p.types_addBlock args, h.block]
  exact List.map_congr_left fun v _ => congrArg Value.type (h.value v)

theorem untouched : Untouched p (step p).2 none := by
  intro b hb _
  rw [h.block, Program.block_addBlock, if_neg (Nat.ne_of_lt hb)]

theorem terminator?_new : (step p).2.terminator? ⟨p.blocks.size⟩ = none := by
  rw [Program.terminator?, h.block, Program.block_addBlock, if_pos rfl]
  rfl

theorem run_openSite (isolated : Bool) (names : List Source.Name) (frames : List Frame)
    (ds : List Diagnostic) : (openSite step isolated names).run ⟨p, frames, ds⟩ =
      (⟨p.blocks.size⟩, ((names.zip ((step p).2.block ⟨p.blocks.size⟩).args).forM
        fun (name, v) => define name v).run ⟨(step p).2, ⟨[], isolated⟩ :: frames, ds⟩ |>.2) := by
  rw [← h.index]
  rfl

theorem builds_openSite {sites : List Site} (hc : Sound ⟨p, sites⟩) {region : Region}
    {names : List Source.Name} (hnames : args.map (·.1) = names.map fun n => some n.text)
    (hstep : (args.filterMap (·.1)).Nodup → Step ⟨p, sites⟩
      ⟨(step p).2, ⟨(step p).1, region, []⟩ :: sites⟩) :
    Builds ⟨p, sites⟩ (openSite step (decide (region = .hierarchy)) names) fun b d =>
      b = ⟨p.blocks.size⟩ ∧ d = ⟨(step p).2, ⟨b, region, []⟩ :: sites⟩ := by
  intro t hmatch hclean
  obtain ⟨q, frames, ds⟩ := t
  obtain rfl : q = p := hmatch.program
  rw [h.index] at hstep
  rw [h.run_openSite] at hclean ⊢
  obtain ⟨g, hg⟩ := run_defines (names.zip ((step q).2.block ⟨q.blocks.size⟩).args) (step q).2
    ⟨[], decide (region = Region.hierarchy)⟩ frames ds
  have hempty := locals_of_no_block q
  -- before the definitions the frame fits the block that the program does not have yet
  have hf : FrameAt q ⟨[], decide (region = Region.hierarchy)⟩ ⟨⟨q.blocks.size⟩, region, []⟩ :=
    ⟨rfl, by rw [hempty]; rfl, List.nodup_nil⟩
  have hentries := entries_of_names (h.names_new.trans hnames)
  have hfresh := hg.fresh hclean hf hentries
  rw [hempty, h.names_new, List.filterMap_map] at hfresh
  refine ⟨_, .single (hstep hfresh), ⟨hg.program, ?_⟩, rfl, rfl⟩
  rw [hg.frames]
  refine .cons (hf.defined hg hclean rfl ?_ (by simp [hempty]) hentries)
    (FrameAt.keep hc.linked h.grows (fun s hs => ?_) hmatch.frames)
  · rw [hempty, h.locals_new, List.nil_append]
  · exact ⟨hc.site_lt hs, h.untouched.all (hc.site_lt hs)⟩

end Opens

/-- Opens a site for the body of an operation. -/
def enter (region : Region) (args : List (Option String × ValueType)) (names : List Source.Name) :
    Lower BlockId := openSite (·.addBlock args) (decide (region = Region.hierarchy)) names

/-- Leaves the innermost site. -/
def leave : Lower Unit := modify fun s => { s with frames := s.frames.tail }

theorem builds_enter {c : Construction} {s : Site} {outer : List Site} (hc : Sound c)
    (hsites : c.sites = s :: outer) {region : Region} (hregion : region ≠ .func)
    (args : List (Option String × ValueType)) {names : List Source.Name}
    (hnames : args.map (·.1) = names.map fun n => some n.text) :
    Builds c (enter region args names) fun b d => b = ⟨c.program.blocks.size⟩ ∧
      d = ⟨(c.program.addBlock args).2, ⟨b, region, []⟩ :: c.sites⟩ := by
  obtain ⟨p, sites⟩ := c
  obtain rfl : sites = s :: outer := hsites
  exact (opens_addBlock p args).builds_openSite hc hnames fun hargs =>
    .body p s outer region args hargs hregion

theorem builds_leave {p : Program} {s t : Site} {outer : List Site} (hbodies : s.bodies = [])
    (hregion : s.region ≠ .func) (hended : (p.terminator? s.block).isSome = true) :
    Builds ⟨p, s :: t :: outer⟩ leave fun _ d =>
      d = ⟨p, { t with bodies := t.bodies ++ [(s.region, s.block)] } :: outer⟩ := by
  intro u hmatch _
  refine ⟨_, .single (.close p s t outer hbodies hregion hended), ?_, rfl⟩
  obtain ⟨q, frames, diagnostics⟩ := u
  refine ⟨hmatch.program, ?_⟩
  cases hmatch.frames with
  | cons _ hrest =>
    cases hrest with
    | cons hf hrest => exact .cons ⟨hf.isolated, hf.names, hf.distinct⟩ hrest

/-- What is done with a site once it is open. -/
def inside (region : Region) (span : Span) (fill : BlockId → Lower Unit) (b : BlockId) :
    Lower BlockId := do
  fill b
  closeBody b region span
  leave
  return b

/-- The arguments of a body by name and type. -/
def bodyArgs (args : List (Source.Name × ValueType)) : List (Option String × ValueType) :=
  args.map fun a => (some a.1.text, a.2)

theorem names_bodyArgs (args : List (Source.Name × ValueType)) :
    (bodyArgs args).map (·.1) = (args.map (·.1)).map fun n => some n.text := by
  rw [bodyArgs, List.map_map, List.map_map]
  rfl

theorem types_bodyArgs (args : List (Source.Name × ValueType)) :
    (bodyArgs args).map (·.2) = args.map (·.2) := by
  rw [bodyArgs, List.map_map]
  rfl

theorem inRegion_eq (region : Region) (args : List (Source.Name × ValueType)) (span : Span)
    (fill : BlockId → Lower Unit) :
    inRegion region args span fill =
      enter region (bodyArgs args) (args.map (·.1)) >>= inside region span fill := rfl

theorem honest_leave (b : BlockId) : Honest (do leave; return b) := fun _ hs => hs

theorem honest_inside (region : Region) (span : Span) {fill : BlockId → Lower Unit}
    (hfill : ∀ b, Honest (fill b)) (b : BlockId) : Honest (inside region span fill b) := by
  refine Honest.bind (hfill b) fun _ => ?_
  exact Honest.bind (honest_closeBody b region span) fun _ => honest_leave b

theorem honest_inRegion (region : Region) (args : List (Source.Name × ValueType)) (span : Span)
    {fill : BlockId → Lower Unit} (hfill : ∀ b, Honest (fill b)) :
    Honest (inRegion region args span fill) := by
  rw [inRegion_eq]
  exact Honest.bind (honest_openSite _ _ _) fun b => honest_inside _ _ hfill b

/-- How a body is filled: its site is left as it was found, and so are all other blocks. -/
def Fills (c : Construction) (b : BlockId) (fill : Lower Unit) : Prop :=
  Builds c fill fun _ d => d.sites = c.sites ∧ Untouched c.program d.program (some b)

theorem builds_inside {p : Program} {s t : Site} {outer : List Site}
    (hc : Sound ⟨p, s :: t :: outer⟩) (hbodies : s.bodies = []) (hregion : s.region ≠ .func)
    (span : Span) {fill : BlockId → Lower Unit}
    (hfill : Fills ⟨p, s :: t :: outer⟩ s.block (fill s.block)) :
    Builds ⟨p, s :: t :: outer⟩ (inside s.region span fill s.block) fun b d =>
      b = s.block ∧ d.sites = { t with bodies := t.bodies ++ [(s.region, s.block)] } :: outer ∧
        Untouched p d.program (some s.block) := by
  refine Builds.bind hfill (fun _ => ?_) ?_
  · exact Honest.bind (honest_closeBody _ _ span) fun _ => honest_leave _
  rintro _ d hcd ⟨hdsites, hdother⟩
  have hd := hc.steps hcd
  refine Builds.bind (builds_closeBody hd hdsites hbodies hregion span)
    (fun _ => honest_leave _) ?_
  rintro _ ⟨q, sites⟩ hde ⟨hesites, heother, hended⟩
  obtain rfl : sites = s :: t :: outer := hesites.trans hdsites
  refine Builds.bind (builds_leave hbodies hregion hended) (fun _ => (reads_pure _).honest) ?_
  rintro _ _ - rfl
  refine (reads_pure _).builds.mono ?_
  rintro b e - ⟨rfl, hb⟩
  exact ⟨hb, rfl, hdother.trans (hc.grows hcd).size_blocks heother⟩

/-- Whatever body of its kind is to be filled, `fill` does it. -/
structure FillsAll (region : Region) (fill : BlockId → Lower Unit) : Prop where
  honest : ∀ b, Honest (fill b)
  fills : ∀ b d outer, Sound d → d.sites = ⟨b, region, []⟩ :: outer →
    d.program.terminator? b = none → Fills d b (fill b)

/-- After a body it is ready at the site; no block that was there has changed. -/
theorem builds_inRegion {c : Construction} {s : Site} {outer : List Site} (hc : Sound c)
    (hsites : c.sites = s :: outer) {region : Region} (hregion : region ≠ .func)
    (args : List (Source.Name × ValueType)) (span : Span) {fill : BlockId → Lower Unit}
    (hfill : FillsAll region fill) :
    Builds c (inRegion region args span fill) fun b d =>
      d.sites = { s with bodies := s.bodies ++ [(region, b)] } :: outer ∧
        (d.program.signature b).args = args.map (·.2) ∧ Untouched c.program d.program none := by
  rw [inRegion_eq]
  obtain ⟨p, sites⟩ := c
  obtain rfl : sites = s :: outer := hsites
  refine Builds.bind (builds_enter hc rfl hregion _ (names_bodyArgs args))
    (honest_inside _ _ hfill.honest) ?_
  rintro b d - ⟨rfl, rfl⟩
  have hd := hc.body (bodyArgs args) hregion
  have hopens := opens_addBlock p (bodyArgs args)
  have hfilled := hfill.fills _ _ _ hd rfl hopens.terminator?_new
  refine (builds_inside hd rfl hregion span hfilled).mono ?_
  rintro b e hde ⟨rfl, hesites, heother⟩
  have hgrow := hd.grows hde
  refine ⟨hesites, ?_, fun b hb _ => ?_⟩
  · rw [Program.signature, hgrow.args _ (by simp)]
    rw [hgrow.map_valueType fun v hv => hd.linked.arg_lt hv]
    exact hopens.types_new.trans (types_bodyArgs args)
  · rw [heother b (Nat.lt_of_lt_of_le hb hopens.grows.size_blocks), hopens.untouched.all hb]
    exact fun heq => Nat.ne_of_gt hb (congrArg BlockId.index (Option.some.inj heq))

/-! ## Operations without regions -/

/-- The kind that a source operation is lowered to. -/
def Spells : Source.Op → OpKind → Prop
  | .yield _, kind => kind = .yield
  | .finish, kind => kind = .finish
  | _, kind => kind.isTerminator = false

theorem stands_of_allowedIn {region : Region} {isLast : Bool} {op : Source.Op} {kind : OpKind}
    (hspells : Spells op kind) (h : allowedIn region isLast op = true) : Stands region kind := by
  cases op
  case yield vs =>
    obtain rfl : kind = .yield := hspells
    have : isLast = true ∧ Stands region .yield := by
      simpa [allowedIn, Stands, or_assoc] using h
    exact this.2
  case finish =>
    obtain rfl : kind = .finish := hspells
    have : isLast = true ∧ Stands region .finish := by simpa [allowedIn, Stands] using h
    exact this.2
  all_goals cases kind <;> trivial

/-- What `buildOp` returns fits the site, which by then has the bodies ready. -/
def Builds.Op (c : Construction) (s : Site) (outer : List Site) (op : Source.Op) (r : Built)
    (d : Construction) : Prop :=
  ∃ bodies spec types, r = some (spec, types) ∧ d.sites = { s with bodies } :: outer ∧
    Prepared d { s with bodies } spec types ∧ Spells op spec.kind ∧
      Untouched c.program d.program none

/-- An operation without regions that may be added at the innermost site. -/
structure Leaf (c : Construction) (spec : OpSpec) (types : List ValueType) : Prop where
  found : ∀ v ∈ spec.operands ++ spec.deps, ∃ n, Found c.program c.sites n v
  regions : spec.regions = []
  bodies : bodyRegions spec.kind = []
  layout : spec.kind.Layout (spec.operands.map c.program.valueType)
    (spec.deps.map c.program.valueType) types []

theorem builds_leaf {c : Construction} {s : Site} {outer : List Site}
    (hsites : c.sites = s :: outer) (hbodies : s.bodies = []) {m : Lower Built} {op : Source.Op}
    {R : Construction → Built → Prop} (hm : Reads m R)
    (h : ∀ r, R c r → ∃ spec types, r = some (spec, types) ∧ Leaf c spec types ∧
      Spells op spec.kind) : Builds c m (Builds.Op c s outer op) := by
  refine hm.builds.mono ?_
  rintro r d - ⟨rfl, hr⟩
  obtain ⟨spec, types, rfl, hleaf, hspells⟩ := h r hr
  refine ⟨[], spec, types, rfl, ?_, ⟨hleaf.found, hleaf.regions, hleaf.bodies, ?_⟩, hspells,
    fun _ _ _ => rfl⟩
  · obtain ⟨b, region, bodies⟩ := s
    obtain rfl : bodies = [] := hbodies
    exact hsites
  · rw [hleaf.regions]
    exact hleaf.layout

section Leaf

variable {c : Construction}

theorem found_of_usable {demand : Demand} {vs : List ValueId}
    (h : ∀ v ∈ vs, Usable c demand v) : ∀ v ∈ vs, ∃ n, Found c.program c.sites n v :=
  fun v hv => (h v hv).1

theorem leaf_sync {spec : OpSpec} {types : List ValueType}
    (hfound : ∀ v ∈ spec.operands, ∃ n, Found c.program c.sites n v) (hdeps : spec.deps = [])
    (hregions : spec.regions = []) (hbodies : bodyRegions spec.kind = [])
    (hshape : spec.kind.Shape (spec.operands.map c.program.valueType) types []) :
    Leaf c spec types := by
  refine ⟨?_, hregions, hbodies, ?_, ?_, hshape⟩
  · rw [hdeps, List.append_nil]
    exact hfound
  · rw [hdeps]
    exact fun _ => rfl
  · rw [hdeps]
    exact fun t ht => absurd ht List.not_mem_nil

theorem leaf_async {spec : OpSpec} {types : List ValueType}
    (hfound : ∀ v ∈ spec.operands, ∃ n, Found c.program c.sites n v)
    (hdeps : ∀ v ∈ spec.deps, Usable c .token v) (hregions : spec.regions = [])
    (hbodies : bodyRegions spec.kind = []) (hasync : spec.kind.isAsync = true)
    (hshape : spec.kind.Shape (spec.operands.map c.program.valueType) types []) :
    Leaf c spec types := by
  refine ⟨fun v hv => ?_, hregions, hbodies, ?_, types_eq_token hdeps, hshape⟩
  · exact (List.mem_append.1 hv).elim (hfound v) (found_of_usable hdeps v)
  · rw [hasync]
    exact Bool.noConfusion

theorem leaf_binary {kind : OpKind} {demand : Demand} {v w : ValueId} {types : List ValueType}
    (hv : Usable c demand v) (hw : Usable c demand w) (hbodies : bodyRegions kind = [])
    (hshape : kind.Shape [c.program.valueType v, c.program.valueType w] types []) :
    Leaf c { kind, operands := [v, w] } types :=
  leaf_sync (found_of_usable (by simpa using ⟨hv, hw⟩)) rfl rfl hbodies hshape

end Leaf

/-! ## Operations with regions -/

/-- What is left to do for an `if` when its bodies are there. -/
def joinBranches (span : Span) (cond : ValueId) (b b' : BlockId) : Lower Built := do
  let types ← yieldedTypes b
  if types = (← yieldedTypes b') then
    return some ({ kind := .branch, operands := [cond], regions := [b, b'] }, types)
  else
    error Code.typeMismatch span "branches of 'if' yield different types"
    return none

theorem buildOp_branch (span : Span) (cond : Source.Name) (thenStmts elseStmts : List Source.Stmt)
    (thenSpan elseSpan : Span) :
    buildOp span (.branch cond (.mk thenStmts thenSpan) (.mk elseStmts elseSpan)) =
      (do
        match ← resolve .index cond with
        | none => return none
        | some cond =>
          let b ← inRegion .branch [] thenSpan fun b => lowerStmts b .branch thenStmts
          let b' ← inRegion .branch [] elseSpan fun b => lowerStmts b .branch elseStmts
          joinBranches span cond b b') := by
  rw [buildOp]
  rfl

theorem reads_joinBranches (span : Span) (cond : ValueId) (b b' : BlockId) :
    Reads (joinBranches span cond b b') fun c r =>
      r = some ({ kind := .branch, operands := [cond], regions := [b, b'] },
        (c.program.signature b).yields) ∧
      (c.program.signature b).yields = (c.program.signature b').yields := by
  refine Reads.bind (reads_yieldedTypes b) fun types => ?_
  refine Reads.bind (reads_yieldedTypes b') fun types' => ?_
  split
  · next heq =>
    refine (reads_pure _).mono ?_
    rintro c _ rfl rfl rfl
    exact ⟨rfl, heq⟩
  · exact Reads.never (reads_error _ _ _ _) fun _ => reads_pure_true _

/-- A body that is ready keeps its signature while other blocks are filled. -/
theorem Sound.signature_ready {d e : Construction} (hd : Sound d) {s : Site} {outer : List Site}
    (hsites : d.sites = s :: outer) {r : Region} {b : BlockId} (hb : (r, b) ∈ s.bodies)
    (hde : Steps d e) (hother : Untouched d.program e.program none) :
    e.program.signature b = d.program.signature b := by
  have hroot := mem_roots_of_mem_bodies (c := d) (hsites ▸ List.mem_cons_self) hb
  have hlt := ((hd.mem_roots b).1 (List.mem_map_of_mem hroot)).1
  exact (hd.grows hde).signature_eq hd.linked hd.used hlt (hother.all hlt)

section Regions

variable {c : Construction} {s : Site} {outer : List Site} (hc : Sound c)
variable (hsites : c.sites = s :: outer) (hbodies : s.bodies = [])

include hc hsites in
theorem found_of_steps {d : Construction} (hcd : Steps c d) {bodies : List (Region × BlockId)}
    (hd : d.sites = { s with bodies } :: outer) (hother : Untouched c.program d.program none)
    {v : ValueId} (hv : ∃ n, Found c.program c.sites n v) : ∃ n, Found d.program d.sites n v := by
  obtain ⟨n, hv⟩ := hv
  rw [hsites] at hv
  rw [hd]
  have hlt : ∀ t ∈ s :: outer, t.block.index < c.program.blocks.size :=
    fun t ht => hc.site_lt (hsites ▸ ht)
  have hgrown : Found d.program (s :: outer) n v := Found.grow hc.linked (hc.grows hcd)
    (fun t ht => ⟨hlt t ht, hother.all (hlt t ht)⟩) hv
  exact ⟨n, hgrown⟩

include hc in
theorem types_of_steps {d : Construction} (hcd : Steps c d) {demand : Demand}
    {vs : List ValueId} (hvs : ∀ v ∈ vs, Usable c demand v) :
    vs.map d.program.valueType = vs.map c.program.valueType :=
  (hc.grows hcd).map_valueType fun v hv => (hvs v hv).known.lt hc.linked

include hc hsites hbodies

theorem builds_compute (span : Span) (deps : List Source.Name) {stmts : List Source.Stmt}
    {bodySpan : Span} (hfill : FillsAll .compute fun b => lowerStmts b .compute stmts) :
    Builds c (buildOp span (.compute deps (.mk stmts bodySpan)))
      (Builds.Op c s outer (.compute deps (.mk stmts bodySpan))) := by
  rw [buildOp]
  refine Reads.then (reads_resolveAll .token deps) (fun r => ?_) ?_
  · split
    · exact (reads_pure _).honest
    · refine Honest.bind (honest_inRegion _ _ _ hfill.honest) fun b => ?_
      exact Honest.bind (reads_yieldedTypes b).honest fun _ => (reads_pure _).honest
  rintro _ ⟨ds, rfl, -, hds⟩
  have hregion : Region.compute ≠ .func := by decide
  refine Builds.bind (builds_inRegion hc hsites hregion [] bodySpan hfill) (fun b => ?_) ?_
  · exact Honest.bind (reads_yieldedTypes b).honest fun _ => (reads_pure _).honest
  rintro b d hcd ⟨hdsites, hargs, hother⟩
  rw [hbodies, List.nil_append] at hdsites
  refine Reads.then (reads_yieldedTypes b) (fun _ => (reads_pure _).honest) ?_
  rintro _ rfl
  refine (reads_pure _).builds.mono ?_
  rintro _ e - ⟨rfl, rfl⟩
  refine ⟨_, _, _, rfl, hdsites, ⟨?_, rfl, rfl, nofun, ?_, rfl, ?_⟩, rfl, hother⟩
  · exact fun v hv => found_of_steps hc hsites hcd hdsites hother (hds v hv).1
  · rw [types_of_steps hc hcd hds]
    exact types_eq_token hds
  · exact ⟨_, rfl, hargs, rfl⟩

theorem builds_loop (span : Span) (kind : LoopKind) (var lower upper step : Source.Name)
    (carried : List Source.Binding) {stmts : List Source.Stmt} {bodySpan : Span}
    (hfill : FillsAll .loop fun b => lowerStmts b .loop stmts) :
    Builds c (buildOp span (.loop kind var lower upper step carried (.mk stmts bodySpan)))
      (Builds.Op c s outer (.loop kind var lower upper step carried (.mk stmts bodySpan))) := by
  rw [buildOp]
  refine Reads.then (reads_loopOperands var lower upper step carried) (fun r => ?_) ?_
  · split
    · exact (reads_pure _).honest
    · exact Honest.bind (honest_inRegion _ _ _ hfill.honest) fun b => (reads_pure _).honest
  rintro _ ⟨bounds, inits, args, rfl, hlen, hbounds, hinits, htypes⟩
  have hregion : Region.loop ≠ .func := by decide
  refine Builds.bind (builds_inRegion hc hsites hregion args bodySpan hfill)
    (fun _ => (reads_pure _).honest) ?_
  rintro b d hcd ⟨hdsites, hargs, hother⟩
  rw [hbodies, List.nil_append] at hdsites
  refine (reads_pure _).builds.mono ?_
  rintro _ e - ⟨rfl, rfl⟩
  refine ⟨_, _, _, rfl, hdsites, ⟨fun v hv => ?_, rfl, rfl, fun _ => rfl, nofun, ?_⟩, rfl, hother⟩
  · refine found_of_steps hc hsites hcd hdsites hother ?_
    rw [List.append_nil] at hv
    exact (List.mem_append.1 hv).elim (found_of_usable hbounds v) (found_of_usable hinits v)
  · have htail : args.tail.map (·.2) = inits.map c.program.valueType := by
      rw [List.map_tail, htypes, List.tail_cons]
    refine ⟨_, rfl, ?_, ?_⟩
    · rw [List.map_append, types_of_steps hc hcd hbounds, types_of_steps hc hcd hinits, htail]
      congr 1
      exact List.eq_replicate_of_mem (types_eq_index hbounds) |>.trans (by simp [hlen])
    · rw [hargs, htypes, htail]

theorem builds_hierarchy (span : Span) (level : Level) (deps ids : List Source.Name)
    (args : List Source.Binding) {stmts : List Source.Stmt} {bodySpan : Span}
    (hfill : FillsAll .hierarchy fun b => lowerStmts b .hierarchy stmts) :
    Builds c (buildOp span (.hierarchy level deps ids args (.mk stmts bodySpan)))
      (Builds.Op c s outer (.hierarchy level deps ids args (.mk stmts bodySpan))) := by
  rw [buildOp]
  refine Reads.then (reads_hierarchyOperands deps ids args) (fun r => ?_) ?_
  · split
    · exact (reads_pure _).honest
    · exact Honest.bind (honest_inRegion _ _ _ hfill.honest) fun b => (reads_pure _).honest
  rintro _ ⟨ds, vs, params, rfl, hds, hvs, htoken, htypes⟩
  have hregion : Region.hierarchy ≠ .func := by decide
  refine Builds.bind (builds_inRegion hc hsites hregion params bodySpan hfill)
    (fun _ => (reads_pure _).honest) ?_
  rintro b d hcd ⟨hdsites, hargs, hother⟩
  rw [hbodies, List.nil_append] at hdsites
  refine (reads_pure _).builds.mono ?_
  rintro _ e - ⟨rfl, rfl⟩
  refine ⟨_, _, _, rfl, hdsites, ⟨fun v hv => ?_, rfl, rfl, nofun, ?_, rfl, ?_⟩, rfl, hother⟩
  · refine found_of_steps hc hsites hcd hdsites hother ?_
    exact (List.mem_append.1 hv).elim (found_of_usable hvs v) (found_of_usable hds v)
  · rw [types_of_steps hc hcd hds]
    exact types_eq_token hds
  · rw [types_of_steps hc hcd hvs]
    refine ⟨fun hmem => ?_, _, rfl, hargs.trans htypes⟩
    obtain ⟨v, hv, htype⟩ := List.mem_map.1 hmem
    exact htoken v hv htype

theorem builds_branch (span : Span) (cond : Source.Name) {thenStmts elseStmts : List Source.Stmt}
    {thenSpan elseSpan : Span} (hthen : FillsAll .branch fun b => lowerStmts b .branch thenStmts)
    (helse : FillsAll .branch fun b => lowerStmts b .branch elseStmts) :
    Builds c (buildOp span (.branch cond (.mk thenStmts thenSpan) (.mk elseStmts elseSpan)))
      (Builds.Op c s outer
        (.branch cond (.mk thenStmts thenSpan) (.mk elseStmts elseSpan))) := by
  rw [buildOp_branch]
  refine Reads.then (reads_resolve .index cond) (fun r => ?_) ?_
  · split
    · exact (reads_pure _).honest
    · refine Honest.bind (honest_inRegion _ _ _ hthen.honest) fun b => ?_
      exact Honest.bind (honest_inRegion _ _ _ helse.honest)
        fun b' => (reads_joinBranches span _ b b').honest
  rintro _ ⟨v, rfl, hv⟩
  have hbranch : Region.branch ≠ .func := by decide
  refine Builds.bind (builds_inRegion hc hsites hbranch [] thenSpan hthen) (fun b => ?_) ?_
  · exact Honest.bind (honest_inRegion _ _ _ helse.honest)
      fun b' => (reads_joinBranches span v b b').honest
  rintro b d hcd ⟨hdsites, hargs, hother⟩
  rw [hbodies, List.nil_append] at hdsites
  have hd := hc.steps hcd
  refine Builds.bind (builds_inRegion hd hdsites hbranch [] elseSpan helse)
    (fun b' => (reads_joinBranches span v b b').honest) ?_
  rintro b' e hde ⟨hesites, hargs', hother'⟩
  have hsignature := hd.signature_ready hdsites (List.mem_singleton_self _) hde hother'
  refine (reads_joinBranches span v b b').builds.mono ?_
  rintro _ f - ⟨rfl, rfl, htypes⟩
  have huntouched := hother.trans (hc.grows hcd).size_blocks hother'
  refine ⟨_, _, _, rfl, hesites, ⟨?_, rfl, rfl, fun _ => rfl, nofun, ?_⟩, rfl, huntouched⟩
  · intro w hw
    obtain rfl : w = v := List.mem_singleton.1 hw
    exact found_of_steps hc hsites (hcd.trans hde) hesites huntouched hv.1
  · have hone : ∀ w ∈ [v], Usable c .index w := List.forall_mem_singleton.2 hv
    refine ⟨?_, f.program.signature b, f.program.signature b', rfl, ?_, hargs', rfl, htypes.symm⟩
    · rw [types_of_steps hc (hcd.trans hde) hone, List.map_singleton, type_eq_index hv]
    · rw [hsignature]
      exact hargs

end Regions

/-! ## Statements -/

mutual

theorem honest_buildOp (span : Span) : (op : Source.Op) → Honest (buildOp span op)
  | .const n => by rw [buildOp]; exact (reads_pure _).honest
  | .alloc type => by rw [buildOp]; exact (reads_buildAlloc type span).honest
  | .dealloc a => by rw [buildOp]; exact (reads_buildUnary _ _ a).honest
  | .copy a b => by rw [buildOp]; exact (reads_buildBinary _ _ _ a b).honest
  | .transform ins outs => by rw [buildOp]; exact (reads_buildTransform ins outs).honest
  | .muli a b => by rw [buildOp]; exact (reads_buildBinary _ _ _ a b).honest
  | .addi a b => by rw [buildOp]; exact (reads_buildBinary _ _ _ a b).honest
  | .apply args => by rw [buildOp]; exact (reads_buildApply args).honest
  | .yield vs => by rw [buildOp]; exact (reads_buildYield vs).honest
  | .finish => by rw [buildOp]; exact (reads_pure _).honest
  | .join deps => by rw [buildOp]; exact (reads_buildJoin deps).honest
  | .transfer deps dst src => by rw [buildOp]; exact (reads_buildTransfer deps dst src).honest
  | .put channel deps src => by rw [buildOp]; exact (reads_buildChannel _ deps src).honest
  | .get channel deps dst => by rw [buildOp]; exact (reads_buildChannel _ deps dst).honest
  | .compute deps (.mk stmts bodySpan) => by
    rw [buildOp]
    refine Honest.bind (reads_resolveAll _ _).honest fun r => ?_
    split
    · exact (reads_pure _).honest
    · refine Honest.bind (honest_inRegion _ _ _ fun b => honest_lowerStmts b _ stmts) fun b => ?_
      exact Honest.bind (reads_yieldedTypes b).honest fun _ => (reads_pure _).honest
  | .loop kind var lower upper step carried (.mk stmts bodySpan) => by
    rw [buildOp]
    refine Honest.bind (reads_loopOperands _ _ _ _ _).honest fun r => ?_
    split
    · exact (reads_pure _).honest
    · refine Honest.bind (honest_inRegion _ _ _ fun b => honest_lowerStmts b _ stmts) fun b => ?_
      exact (reads_pure _).honest
  | .branch cond (.mk thenStmts thenSpan) (.mk elseStmts elseSpan) => by
    rw [buildOp_branch]
    refine Honest.bind (reads_resolve _ _).honest fun r => ?_
    split
    · exact (reads_pure _).honest
    · refine Honest.bind (honest_inRegion _ _ _ fun b => honest_lowerStmts b _ thenStmts)
        fun b => ?_
      exact Honest.bind (honest_inRegion _ _ _ fun b => honest_lowerStmts b _ elseStmts)
        fun b' => (reads_joinBranches span _ b b').honest
  | .hierarchy level deps ids args (.mk stmts bodySpan) => by
    rw [buildOp]
    refine Honest.bind (reads_hierarchyOperands deps ids args).honest fun r => ?_
    split
    · exact (reads_pure _).honest
    · refine Honest.bind (honest_inRegion _ _ _ fun b => honest_lowerStmts b _ stmts) fun b => ?_
      exact (reads_pure _).honest

theorem honest_lowerStmt (b : BlockId) : (stmt : Source.Stmt) → Honest (lowerStmt b stmt)
  | .mk results op span => by
    rw [lowerStmt]
    refine Honest.bind (honest_buildOp span op) fun r => ?_
    split
    · exact honest_addOp _ _ _ _
    · exact (reads_pure _).honest

theorem honest_lowerStmts (b : BlockId) (region : Region) :
    (stmts : List Source.Stmt) → Honest (lowerStmts b region stmts)
  | [] => by rw [lowerStmts]; exact (reads_pure _).honest
  | stmt :: rest => by
    rw [lowerStmts]
    simp only
    split
    · exact Honest.bind (honest_lowerStmt b stmt) fun _ => honest_lowerStmts b region rest
    · exact Honest.bind (reads_error _ _ _ fun _ _ => True).honest fun _ =>
        honest_lowerStmts b region rest

end

mutual

theorem builds_buildOp (span : Span) : (op : Source.Op) → {c : Construction} → {s : Site} →
    {outer : List Site} → Sound c → c.sites = s :: outer → s.bodies = [] →
    Builds c (buildOp span op) (Builds.Op c s outer op)
  | .const n, _, _, _, _, hsites, hbodies => by
    rw [buildOp]
    refine builds_leaf hsites hbodies (reads_pure _) ?_
    rintro _ rfl
    exact ⟨_, _, rfl, leaf_sync (fun v hv => absurd hv List.not_mem_nil) rfl rfl rfl
      ⟨rfl, rfl, rfl⟩, rfl⟩
  | .alloc type, _, _, _, _, hsites, hbodies => by
    rw [buildOp]
    refine builds_leaf hsites hbodies (reads_buildAlloc type span) ?_
    rintro _ ⟨t, ht, rfl⟩
    exact ⟨_, _, rfl, leaf_sync (fun v hv => absurd hv List.not_mem_nil) rfl rfl rfl
      ⟨rfl, ⟨t, ht, rfl⟩, rfl⟩, rfl⟩
  | .dealloc a, _, _, _, _, hsites, hbodies => by
    rw [buildOp]
    refine builds_leaf hsites hbodies (reads_buildUnary _ _ a) ?_
    rintro _ ⟨v, rfl, hv⟩
    exact ⟨_, _, rfl, leaf_sync (found_of_usable (List.forall_mem_singleton.2 hv)) rfl rfl rfl
      ⟨⟨_, hv.2, rfl⟩, rfl, rfl⟩, rfl⟩
  | .copy a b, _, _, _, _, hsites, hbodies => by
    rw [buildOp]
    refine builds_leaf hsites hbodies (reads_buildBinary _ _ _ a b) ?_
    rintro _ ⟨v, w, rfl, hv, hw⟩
    exact ⟨_, _, rfl, leaf_binary hv hw rfl ⟨⟨_, _, hv.2, hw.2, rfl⟩, rfl, rfl⟩, rfl⟩
  | .transform ins outs, _, _, _, _, hsites, hbodies => by
    rw [buildOp]
    refine builds_leaf hsites hbodies (reads_buildTransform ins outs) ?_
    rintro _ ⟨vs, ws, rfl, hvs, hws⟩
    refine ⟨_, _, rfl, leaf_sync ?_ rfl rfl rfl ⟨by simp, rfl, rfl⟩, rfl⟩
    exact found_of_usable (List.forall_mem_append.2 ⟨hvs, hws⟩)
  | .muli a b, _, _, _, _, hsites, hbodies => by
    rw [buildOp]
    refine builds_leaf hsites hbodies (reads_buildBinary _ _ _ a b) ?_
    rintro _ ⟨v, w, rfl, hv, hw⟩
    refine ⟨_, _, rfl, leaf_binary hv hw rfl ⟨?_, rfl, rfl⟩, rfl⟩
    rw [type_eq_index hv, type_eq_index hw]
  | .addi a b, _, _, _, _, hsites, hbodies => by
    rw [buildOp]
    refine builds_leaf hsites hbodies (reads_buildBinary _ _ _ a b) ?_
    rintro _ ⟨v, w, rfl, hv, hw⟩
    refine ⟨_, _, rfl, leaf_binary hv hw rfl ⟨?_, rfl, rfl⟩, rfl⟩
    rw [type_eq_index hv, type_eq_index hw]
  | .apply args, _, _, _, _, hsites, hbodies => by
    rw [buildOp]
    refine builds_leaf hsites hbodies (reads_buildApply args) ?_
    rintro _ ⟨vs, rfl, hvs⟩
    exact ⟨_, _, rfl, leaf_sync (found_of_usable hvs) rfl rfl rfl
      ⟨types_eq_index hvs, rfl, rfl⟩, rfl⟩
  | .yield vs, _, _, _, _, hsites, hbodies => by
    rw [buildOp]
    refine builds_leaf hsites hbodies (reads_buildYield vs) ?_
    rintro _ ⟨vs, rfl, hvs⟩
    exact ⟨_, _, rfl, leaf_sync (found_of_usable hvs) rfl rfl rfl ⟨rfl, rfl⟩, rfl⟩
  | .finish, _, _, _, _, hsites, hbodies => by
    rw [buildOp]
    refine builds_leaf hsites hbodies (reads_pure _) ?_
    rintro _ rfl
    exact ⟨_, _, rfl, leaf_sync (fun v hv => absurd hv List.not_mem_nil) rfl rfl rfl
      ⟨rfl, rfl, rfl⟩, rfl⟩
  | .join deps, _, _, _, _, hsites, hbodies => by
    rw [buildOp]
    refine builds_leaf hsites hbodies (reads_buildJoin deps) ?_
    rintro _ ⟨ds, rfl, hds⟩
    exact ⟨_, _, rfl, leaf_async (fun v hv => absurd hv List.not_mem_nil) hds rfl rfl rfl
      ⟨rfl, rfl, rfl⟩, rfl⟩
  | .transfer deps dst src, _, _, _, _, hsites, hbodies => by
    rw [buildOp]
    refine builds_leaf hsites hbodies (reads_buildTransfer deps dst src) ?_
    rintro _ ⟨ds, d, s, atDst, atSrc, rfl, hds, hd, hs⟩
    refine ⟨_, _, rfl, leaf_async ?_ hds rfl rfl rfl ⟨?_, rfl, rfl⟩, rfl⟩
    · refine List.forall_mem_cons.2 ⟨hd.usable.1, List.forall_mem_cons.2 ⟨hs.usable.1, ?_⟩⟩
      exact found_of_usable (List.forall_mem_append.2 ⟨hd.usable_offsets, hs.usable_offsets⟩)
    · exact ⟨_, _, _, _, by simp, by simp, hd.isAccess, hs.isAccess⟩
  | .put channel deps src, _, _, _, _, hsites, hbodies => by
    rw [buildOp]
    refine builds_leaf hsites hbodies (reads_buildChannel _ deps src) ?_
    rintro _ ⟨ds, base, offsets, rfl, hds, hb⟩
    refine ⟨_, _, rfl, leaf_async ?_ hds rfl rfl rfl ⟨⟨_, _, rfl, hb.isAccess⟩, rfl, rfl⟩, rfl⟩
    exact List.forall_mem_cons.2 ⟨hb.usable.1, found_of_usable hb.usable_offsets⟩
  | .get channel deps dst, _, _, _, _, hsites, hbodies => by
    rw [buildOp]
    refine builds_leaf hsites hbodies (reads_buildChannel _ deps dst) ?_
    rintro _ ⟨ds, base, offsets, rfl, hds, hb⟩
    refine ⟨_, _, rfl, leaf_async ?_ hds rfl rfl rfl ⟨⟨_, _, rfl, hb.isAccess⟩, rfl, rfl⟩, rfl⟩
    exact List.forall_mem_cons.2 ⟨hb.usable.1, found_of_usable hb.usable_offsets⟩
  | .compute deps (.mk stmts bodySpan), _, _, _, hc, hsites, hbodies =>
    builds_compute hc hsites hbodies span deps
      ⟨fun b => honest_lowerStmts b _ stmts, fun b d outer hd hs ht =>
        builds_lowerStmts stmts hd hs rfl ht⟩
  | .loop kind var lower upper step carried (.mk stmts bodySpan), _, _, _, hc, hsites, hbodies =>
    builds_loop hc hsites hbodies span kind var lower upper step carried
      ⟨fun b => honest_lowerStmts b _ stmts, fun b d outer hd hs ht =>
        builds_lowerStmts stmts hd hs rfl ht⟩
  | .branch cond (.mk thenStmts thenSpan) (.mk elseStmts elseSpan), _, _, _, hc, hsites, hbodies =>
    builds_branch hc hsites hbodies span cond
      ⟨fun b => honest_lowerStmts b _ thenStmts, fun b d outer hd hs ht =>
        builds_lowerStmts thenStmts hd hs rfl ht⟩
      ⟨fun b => honest_lowerStmts b _ elseStmts, fun b d outer hd hs ht =>
        builds_lowerStmts elseStmts hd hs rfl ht⟩
  | .hierarchy level deps ids args (.mk stmts bodySpan), _, _, _, hc, hsites, hbodies =>
    builds_hierarchy hc hsites hbodies span level deps ids args
      ⟨fun b => honest_lowerStmts b _ stmts, fun b d outer hd hs ht =>
        builds_lowerStmts stmts hd hs rfl ht⟩

theorem builds_lowerStmt : (stmt : Source.Stmt) → {c : Construction} → {s : Site} →
    {outer : List Site} → Sound c → c.sites = s :: outer → s.bodies = [] →
    c.program.terminator? s.block = none → {isLast : Bool} →
    allowedIn s.region isLast stmt.op = true →
    Builds c (lowerStmt s.block stmt) fun _ d => d.sites = c.sites ∧
      Untouched c.program d.program (some s.block) ∧
      (isLast = false → d.program.terminator? s.block = none)
  | .mk results op span, c, s, outer, hc, hsites, hbodies, hopen, isLast, hallowed => by
    rw [lowerStmt]
    refine Builds.bind (builds_buildOp span op hc hsites hbodies) (fun r => ?_) ?_
    · split
      · exact honest_addOp _ _ _ _
      · exact (reads_pure _).honest
    rintro _ d hcd ⟨bodies, spec, types, rfl, hdsites, hprepared, hspells, hother⟩
    have hd := hc.steps hcd
    have hblock : s.block.index < c.program.blocks.size := by
      have hroot := hc.site_mem_roots (s := s) (by rw [hsites]; exact List.mem_cons_self)
      exact ((hc.mem_roots s.block).1 (List.mem_map_of_mem hroot)).1
    have hdopen : d.program.terminator? s.block = none := by
      rw [hother.terminator?_eq hc hcd hblock, hopen]
    have hadd := builds_addOp hd hdsites ⟨results, op, span⟩ hprepared
      (stands_of_allowedIn hspells hallowed) hdopen
    refine hadd.mono ?_
    rintro _ e hde ⟨hesites, hother', hnext⟩
    refine ⟨?_, (hother.weaken _).trans (hc.grows hcd).size_blocks hother', fun hlast => ?_⟩
    · rw [hesites, hsites]
      obtain ⟨b, region, bodies⟩ := s
      obtain rfl : bodies = [] := hbodies
      rfl
    · rw [← Option.not_isSome_iff_eq_none, hnext, Bool.not_eq_true]
      subst hlast
      cases op
      case yield => exact absurd hallowed Bool.false_ne_true
      case finish => exact absurd hallowed Bool.false_ne_true
      all_goals exact hspells

theorem builds_lowerStmts : (stmts : List Source.Stmt) → {c : Construction} → {s : Site} →
    {outer : List Site} → Sound c → c.sites = s :: outer → s.bodies = [] →
    c.program.terminator? s.block = none → Fills c s.block (lowerStmts s.block s.region stmts)
  | [], c, s, outer, hc, hsites, hbodies, hopen => by
    rw [lowerStmts]
    refine (reads_pure _).builds.mono ?_
    rintro _ d - ⟨rfl, -⟩
    exact ⟨rfl, fun _ _ _ => rfl⟩
  | stmt :: rest, c, s, outer, hc, hsites, hbodies, hopen => by
    rw [lowerStmts]
    simp only
    split
    · next hallowed =>
      refine Builds.bind (builds_lowerStmt stmt hc hsites hbodies hopen hallowed)
        (fun _ => honest_lowerStmts s.block s.region rest) ?_
      rintro _ d hcd ⟨hdsites, hother, hnext⟩
      have hd := hc.steps hcd
      cases rest with
      | nil =>
        rw [lowerStmts]
        refine (reads_pure _).builds.mono ?_
        rintro _ e - ⟨rfl, -⟩
        exact ⟨hdsites, hother⟩
      | cons stmt' rest =>
        have hrest :=
          builds_lowerStmts (stmt' :: rest) hd (hdsites.trans hsites) hbodies (hnext rfl)
        refine hrest.mono ?_
        rintro _ e - ⟨hesites, hother'⟩
        exact ⟨hesites.trans hdsites, hother.trans (hc.grows hcd).size_blocks hother'⟩
    · exact Reads.then (reads_error _ _ _ fun _ _ => False)
        (fun _ => honest_lowerStmts s.block s.region rest) fun _ hF => hF.elim

end

theorem fillsAll_lowerStmts (region : Region) (stmts : List Source.Stmt) :
    FillsAll region fun b => lowerStmts b region stmts where
  honest b := honest_lowerStmts b region stmts
  fills _ _ _ hd hs hopen := builds_lowerStmts stmts hd hs rfl hopen

/-! ## Functions and modules -/

theorem reads_lowerParams (params : List Source.Param) :
    Reads (lowerParams params) fun _ r =>
      r.map (·.1) = (params.map (·.name)).map fun n => some n.text := by
  induction params with
  | nil =>
    refine (reads_pure _).mono ?_
    rintro c _ rfl
    rfl
  | cons param params ih =>
    refine Reads.bind (reads_lowerType param.type) fun type => ?_
    refine Reads.bind ih fun rest => (reads_pure _).mono ?_
    rintro c _ rfl hrest -
    rw [List.map_cons, hrest]
    rfl

/-- Opens the site of a function's body. -/
def enterFunc (name : String) (params : List (Option String × ValueType))
    (names : List Source.Name) : Lower BlockId :=
  openSite (·.addFunc name params) (decide (Region.func = .hierarchy)) names

/-- What is done with the site of a function's body once it is open. -/
def insideFunc (f : Source.Func) (b : BlockId) : Lower Unit := do
  lowerStmts b .func f.body.stmts
  closeBody b .func f.body.span
  leave

theorem lowerFunc_eq (f : Source.Func) :
    lowerFunc f = lowerParams f.params >>= fun params =>
      enterFunc f.name.text params (f.params.map (·.name)) >>= insideFunc f := rfl

theorem honest_insideFunc (f : Source.Func) (b : BlockId) : Honest (insideFunc f b) := by
  refine Honest.bind (honest_lowerStmts b _ _) fun _ => ?_
  exact Honest.bind (honest_closeBody b _ _) fun _ s hs => hs

theorem honest_lowerFunc (f : Source.Func) : Honest (lowerFunc f) := by
  rw [lowerFunc_eq]
  refine Honest.bind (reads_lowerParams _).honest fun params => ?_
  exact Honest.bind (honest_openSite _ _ _) fun b => honest_insideFunc f b

theorem builds_enterFunc {p : Program} (hp : Sound ⟨p, []⟩) (name : String)
    (params : List (Option String × ValueType)) {names : List Source.Name}
    (hnames : params.map (·.1) = names.map fun n => some n.text) :
    Builds ⟨p, []⟩ (enterFunc name params names) fun b d => b = ⟨p.blocks.size⟩ ∧
      d = ⟨(p.addFunc name params).2, [⟨b, .func, []⟩]⟩ :=
  (opens_addFunc p name params).builds_openSite hp hnames fun hargs => .func p name params hargs

theorem builds_leaveFunc {p : Program} {s : Site} (hbodies : s.bodies = [])
    (hregion : s.region = .func) : Builds ⟨p, [s]⟩ leave fun _ d => d = ⟨p, []⟩ := by
  intro u hmatch _
  refine ⟨_, .single (.finish p s hbodies hregion), ?_, rfl⟩
  obtain ⟨q, frames, diagnostics⟩ := u
  refine ⟨hmatch.program, ?_⟩
  cases hmatch.frames with
  | cons _ hrest => exact hrest

/-- The body of a function is left open. -/
theorem reads_closeBody (b : BlockId) (span : Span) :
    Reads (closeBody b .func span) fun _ _ => True := by
  refine Reads.bind reads_get fun t => ?_
  split
  · exact (reads_pure_true _).mono fun _ _ _ _ => trivial
  · exact (reads_pure_true _).mono fun _ _ _ _ => trivial

theorem builds_insideFunc {p : Program} {b : BlockId} (hc : Sound ⟨p, [⟨b, .func, []⟩]⟩)
    (hopen : p.terminator? b = none) (f : Source.Func) :
    Builds ⟨p, [⟨b, .func, []⟩]⟩ (insideFunc f b) fun _ d => d.sites = [] := by
  refine Builds.bind (builds_lowerStmts f.body.stmts hc rfl rfl hopen) (fun _ => ?_) ?_
  · exact Honest.bind (honest_closeBody b _ _) fun _ s hs => hs
  rintro _ ⟨q, sites⟩ - ⟨hsites, -⟩
  obtain rfl : sites = [⟨b, .func, []⟩] := hsites
  refine Reads.then (reads_closeBody b f.body.span) (fun _ s hs => hs) fun _ _ => ?_
  refine (builds_leaveFunc rfl rfl).mono ?_
  rintro _ d - rfl
  rfl

theorem builds_lowerFunc {p : Program} (hp : Sound ⟨p, []⟩) (f : Source.Func) :
    Builds ⟨p, []⟩ (lowerFunc f) fun _ d => d.sites = [] := by
  rw [lowerFunc_eq]
  refine Reads.then (reads_lowerParams f.params) (fun params => ?_) fun params hnames => ?_
  · exact Honest.bind (honest_openSite _ _ _) fun b => honest_insideFunc f b
  refine Builds.bind (builds_enterFunc hp f.name.text params hnames) (honest_insideFunc f) ?_
  rintro b d hsteps ⟨rfl, rfl⟩
  exact builds_insideFunc (hp.steps hsteps) (opens_addFunc p f.name.text params).terminator?_new f

theorem honest_lowerFuncs (funcs : List Source.Func) : Honest (funcs.forM lowerFunc) := by
  induction funcs with
  | nil => exact (reads_pure ()).honest
  | cons f funcs ih => exact Honest.bind (honest_lowerFunc f) fun _ => ih

theorem builds_lowerFuncs (funcs : List Source.Func) {p : Program} (hp : Sound ⟨p, []⟩) :
    Builds ⟨p, []⟩ (funcs.forM lowerFunc) fun _ d => d.sites = [] := by
  induction funcs generalizing p with
  | nil =>
    refine (reads_pure ()).builds.mono ?_
    rintro _ d - ⟨rfl, -⟩
    rfl
  | cons f funcs ih =>
    refine Builds.bind (builds_lowerFunc hp f) (fun _ => honest_lowerFuncs funcs) ?_
    rintro _ ⟨q, sites⟩ hsteps hsites
    obtain rfl : sites = [] := hsites
    exact ih (hp.steps hsteps)

/-- A module lowered without errors is put together in steps. -/
theorem steps_of_lower {m : Source.Module} (h : (lower m).hasErrors = false) :
    Steps ⟨.empty, []⟩ ⟨(lower m).program, []⟩ := by
  have hmatch : Matches ⟨.empty, [], []⟩ ⟨.empty, []⟩ := ⟨rfl, .nil⟩
  obtain ⟨⟨p, sites⟩, hsteps, hd, hsites⟩ := builds_lowerFuncs m.funcs sound_empty _ hmatch h
  obtain rfl : sites = [] := hsites
  have hprogram : (lower m).program = p := hd.program
  rw [hprogram]
  exact hsteps

end AsyncOrder.Lowering

namespace AsyncOrder

theorem parse_of_readProgram {source : String} {p : Program} (h : readProgram source = .ok p) :
    ∃ m, Source.parse source = ⟨some m, []⟩ ∧ (lower m).hasErrors = false ∧
      (lower m).program = p := by
  rw [readProgram] at h
  split at h
  · next m hparse =>
    simp only at h
    split at h
    · cases h
    · next herrors => exact ⟨m, hparse, by simpa using herrors, Except.ok.inj h⟩
  · cases h

/-- An accepted text is put together step by step. -/
theorem steps_of_readProgram {source : String} {p : Program} (h : readProgram source = .ok p) :
    Lowering.Steps ⟨.empty, []⟩ ⟨p, []⟩ := by
  obtain ⟨m, -, herrors, rfl⟩ := parse_of_readProgram h
  exact Lowering.steps_of_lower herrors

/-- An accepted text spells a sound program. -/
theorem sound_of_readProgram {source : String} {p : Program} (h : readProgram source = .ok p) :
    Lowering.Sound ⟨p, []⟩ := Lowering.sound_empty.steps (steps_of_readProgram h)

end AsyncOrder
