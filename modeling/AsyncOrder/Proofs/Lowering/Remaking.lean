import AsyncOrder.Proofs.Lowering.Reading
import AsyncOrder.Proofs.Program.Mirroring

/-!
# Lowering what spells a program

When lowering reads names that mean the values of a program `p`, it makes the entities of `p` anew,
without objection:

    Remakes p c m a d    from stage c of the making of p, m goes on to stage d and returns a

Names are compared with those of `p` up to their positions.
-/

namespace AsyncOrder

open Entity (numbering Distinct)

/-- Where the entities of a program go when it is made anew. -/
abbrev Program.anew (p : Program) : Renaming := numbering p.history

/-- What a frame holds when the values are defined, by their places in the program made anew. -/
def Program.scope (p : Program) (vs : List ValueId) : List (String × ValueId) :=
  (vs.map fun v => (p.valueName v, p.anew.value v)).reverse

namespace Lowering

variable {α β : Type} {p : Program}

/-! ## Stages -/

/-- How far the making of a program has come. -/
structure Stage where
  made : List Entity
  frames : List Frame
  funcs : List Func

structure Remade (p : Program) (c : Stage) (s : State) : Prop where
  mirrors : p.Mirrors p.history c.made c.funcs s.program
  frames : s.frames = c.frames
  silent : s.diagnostics = []

def Remakes (p : Program) (c : Stage) (m : Lower α) (a : α) (d : Stage) : Prop :=
  ∀ s, Remade p c s → (m.run s).1 = a ∧ Remade p d (m.run s).2

variable {c d e : Stage} {m : Lower α} {f : α → Lower β} {a : α} {b : β}

theorem remakes_pure (a : α) : Remakes p c (pure a) a c := fun _ hs => ⟨rfl, hs⟩

theorem Remakes.bind (hm : Remakes p c m a d) (hf : Remakes p d (f a) b e) :
    Remakes p c (m >>= f) b e := by
  intro s hs
  obtain ⟨ha, hd⟩ := hm s hs
  have h := hf _ hd
  rw [← ha] at h
  exact h

theorem remakes_of_run {s t : State} (h : m.run s = (a, t)) (ht : Remade p d t) :
    (m.run s).1 = a ∧ Remade p d (m.run s).2 := by
  rw [h]
  exact ⟨rfl, ht⟩

theorem remakes_get {f : State → Lower α} (h : ∀ s, Remade p c s → Remakes p c (f s) a d) :
    Remakes p c (get >>= f) a d := fun s hs => h s hs s hs

/-! ## Names -/

/-- The name of a value means its copy, which has been made. -/
structure Seen (p : Program) (c : Stage) (v : ValueId) : Prop where
  found : lookup (p.valueName v) c.frames = some (p.anew.value v, false)
  made : .value v ∈ c.made

theorem text_of_plain {n : Source.Name} {v : ValueId} (h : n.plain = p.sourceName v) :
    n.text = p.valueName v := congrArg Source.Name.text h

theorem texts_of_plain {ns : List Source.Name} {vs : List ValueId}
    (h : ns.map Source.Name.plain = vs.map p.sourceName) :
    ns.map Source.Name.text = vs.map p.valueName := by
  have h := congrArg (List.map Source.Name.text) h
  rwa [List.map_map, List.map_map] at h

variable {n : Source.Name} {ns : List Source.Name} {v : ValueId} {vs : List ValueId}
variable {demand : Demand}

theorem remakes_resolve (hn : n.plain = p.sourceName v) (hv : Seen p c v)
    (hacc : demand.accepts (p.valueType v) = true) :
    Remakes p c (resolve demand n) (some (p.anew.value v)) c := by
  unfold resolve
  refine remakes_get fun s hs => ?_
  rw [text_of_plain hn, hs.frames, hv.found]
  simp only
  rw [(hs.mirrors.value v hv.made).1, if_pos hacc]
  exact remakes_pure _

theorem remakes_resolveAll (hns : ns.map Source.Name.plain = vs.map p.sourceName)
    (hvs : ∀ v ∈ vs, Seen p c v) (hacc : ∀ v ∈ vs, demand.accepts (p.valueType v) = true) :
    Remakes p c (resolveAll demand ns) (some (vs.map p.anew.value)) c := by
  induction vs generalizing ns with
  | nil =>
    obtain rfl := List.map_eq_nil_iff.1 hns
    exact remakes_pure _
  | cons v vs ih =>
    obtain ⟨n, ns, rfl, hn, hns⟩ := List.map_eq_cons_iff.1 hns
    rw [List.forall_mem_cons] at hvs hacc
    refine Remakes.bind (remakes_resolve hn hvs.1 hacc.1) ?_
    exact Remakes.bind (ih hns hvs.2 hacc.2) (remakes_pure _)

theorem accepts_index (h : p.AllOf .index vs) :
    ∀ v ∈ vs, Demand.index.accepts (p.valueType v) = true :=
  fun v hv => by rw [h v hv]; rfl

theorem accepts_token (h : p.AllOf .token vs) :
    ∀ v ∈ vs, Demand.token.accepts (p.valueType v) = true :=
  fun v hv => by rw [h v hv]; rfl

theorem remakes_resolveAccess {x : Source.Access} {base : ValueId} {offsets : List ValueId}
    (hx : x.plain = p.sourceAccess base offsets) (ha : p.AccessAt base offsets)
    (hbase : Seen p c base) (hoffsets : ∀ v ∈ offsets, Seen p c v) :
    Remakes p c (resolveAccess x) (some (p.anew.value base, offsets.map p.anew.value)) c := by
  obtain ⟨hb, hos⟩ := Source.Access.mk.inj hx
  obtain ⟨hmemref, hindex, hrank⟩ := ha
  unfold resolveAccess
  refine Remakes.bind (remakes_resolve hb hbase hmemref) ?_
  refine Remakes.bind (remakes_resolveAll hos hoffsets (accepts_index hindex)) ?_
  refine remakes_get fun s hs => ?_
  rw [(hs.mirrors.value base hbase.made).1]
  cases htype : (p.valueType base).rank? with
  | none => exact remakes_pure _
  | some rank =>
    rw [htype] at hrank
    have hlen : ((offsets.map p.anew.value).isEmpty ||
        (offsets.map p.anew.value).length = rank) = true := by
      rcases hrank with rfl | hlen
      · rfl
      · simp [Option.some.inj hlen]
    simp only
    rw [if_pos hlen]
    exact remakes_pure _

/-! ## Types -/

theorem remakes_lowerType {type : Source.TypeExpr} {t : ValueType} (h : type.plain = t.source)
    (hrank : ∀ (rank : Nat) space, t = .memref rank space → isRank rank = true) :
    Remakes p c (lowerType type) t c := by
  cases t with
  | token =>
    cases type <;> cases h
    exact remakes_pure _
  | index =>
    cases type <;> cases h
    exact remakes_pure _
  | memref rank space =>
    have hrank := hrank rank space rfl
    cases type with
    | token => cases h
    | index => cases h
    | memref rank' space' span =>
      obtain ⟨rfl, hspace, -⟩ := Source.TypeExpr.memref.inj h
      have htext : space'.text = space.text := congrArg Source.Name.text hspace
      have hknown : MemorySpace.ofText? space.text = some space := by cases space <;> rfl
      unfold lowerType
      simp only [htext, hknown, hrank, Option.isNone_some, Bool.false_eq_true, if_false, if_true,
        Int.toNat_natCast, Option.getD_some]
      exact remakes_pure _

/-! ## Operations without regions -/

section built

variable {kind : OpKind} {k l : Source.Name} {ks ls : List Source.Name} {v w : ValueId}
variable {vs ws : List ValueId}

theorem remakes_buildUnary (hk : k.plain = p.sourceName v) (hv : Seen p c v)
    (hacc : demand.accepts (p.valueType v) = true) :
    Remakes p c (buildUnary kind demand k) (some ({ kind, operands := [v].map p.anew.value }, [])) c :=
  Remakes.bind (remakes_resolve hk hv hacc) (remakes_pure _)

theorem remakes_buildBinary (hk : k.plain = p.sourceName v) (hl : l.plain = p.sourceName w)
    (hseen : ∀ x ∈ [v, w], Seen p c x)
    (hacc : ∀ x ∈ [v, w], demand.accepts (p.valueType x) = true) (types : List ValueType) :
    Remakes p c (buildBinary kind demand types k l)
      (some ({ kind, operands := [v, w].map p.anew.value }, types)) c := by
  have hkl : [k, l].map Source.Name.plain = [v, w].map p.sourceName := by
    rw [List.map_cons, List.map_singleton, hk, hl]
    rfl
  exact Remakes.bind (remakes_resolveAll hkl hseen hacc) (remakes_pure _)

theorem remakes_buildAlloc {type : Source.TypeExpr} {t : ValueType} (h : type.plain = t.source)
    (ht : t.isMemref = true)
    (hrank : ∀ (rank : Nat) space, t = .memref rank space → isRank rank = true) (span : Span) :
    Remakes p c (buildAlloc type span) (some ({ kind := .alloc }, [t])) c := by
  refine Remakes.bind (remakes_lowerType h hrank) ?_
  rw [if_pos ht]
  exact remakes_pure _

theorem remakes_buildTransform (hks : ks.map Source.Name.plain = vs.map p.sourceName)
    (hls : ls.map Source.Name.plain = ws.map p.sourceName) (hseen : ∀ v ∈ vs ++ ws, Seen p c v) :
    Remakes p c (buildTransform ks ls)
      (some ({ kind := .transform vs.length, operands := (vs ++ ws).map p.anew.value }, [])) c := by
  rw [List.forall_mem_append] at hseen
  refine Remakes.bind (remakes_resolveAll hks hseen.1 fun _ _ => rfl) ?_
  refine Remakes.bind (remakes_resolveAll hls hseen.2 fun _ _ => rfl) ?_
  have hlen : (vs.map p.anew.value).length = vs.length := List.length_map _
  rw [List.map_append, ← hlen]
  exact remakes_pure _

theorem remakes_buildApply (hks : ks.map Source.Name.plain = vs.map p.sourceName)
    (hseen : ∀ v ∈ vs, Seen p c v) (hvs : p.AllOf .index vs) :
    Remakes p c (buildApply ks)
      (some ({ kind := .apply, operands := vs.map p.anew.value }, [.index])) c :=
  Remakes.bind (remakes_resolveAll hks hseen (accepts_index hvs)) (remakes_pure _)

theorem remakes_buildYield (hks : ks.map Source.Name.plain = vs.map p.sourceName)
    (hseen : ∀ v ∈ vs, Seen p c v) :
    Remakes p c (buildYield ks) (some ({ kind := .yield, operands := vs.map p.anew.value }, [])) c :=
  Remakes.bind (remakes_resolveAll hks hseen fun _ _ => rfl) (remakes_pure _)

variable {ds : List ValueId} (hks : ks.map Source.Name.plain = ds.map p.sourceName)
variable (hds : p.AllOf .token ds) (hwait : ∀ v ∈ ds, Seen p c v)
include hks hds hwait

theorem remakes_buildJoin : Remakes p c (buildJoin ks)
    (some ({ kind := .join, deps := ds.map p.anew.value }, [.token])) c :=
  Remakes.bind (remakes_resolveAll hks hwait (accepts_token hds)) (remakes_pure _)

theorem remakes_buildTransfer {x y : Source.Access} {dst src : ValueId}
    {atDst atSrc : List ValueId} (hx : x.plain = p.sourceAccess dst atDst)
    (hy : y.plain = p.sourceAccess src atSrc) (hdst : p.AccessAt dst atDst)
    (hsrc : p.AccessAt src atSrc) (hseen : ∀ v ∈ dst :: src :: atDst ++ atSrc, Seen p c v) :
    Remakes p c (buildTransfer ks x y)
      (some ({ kind := .transfer atDst.length,
               operands := (dst :: src :: atDst ++ atSrc).map p.anew.value,
               deps := ds.map p.anew.value }, [.token])) c := by
  have hatDst : ∀ v ∈ atDst, Seen p c v := fun v hv => hseen v (by simp [hv])
  have hatSrc : ∀ v ∈ atSrc, Seen p c v := fun v hv => hseen v (by simp [hv])
  refine Remakes.bind (remakes_resolveAll hks hwait (accepts_token hds)) ?_
  refine Remakes.bind (remakes_resolveAccess hx hdst (hseen dst (by simp)) hatDst) ?_
  refine Remakes.bind (remakes_resolveAccess hy hsrc (hseen src (by simp)) hatSrc) ?_
  have hlen : (atDst.map p.anew.value).length = atDst.length := List.length_map _
  rw [List.map_append, List.map_cons, List.map_cons, ← hlen]
  exact remakes_pure _

theorem remakes_buildChannel {x : Source.Access} {base : ValueId} {offsets : List ValueId}
    (hx : x.plain = p.sourceAccess base offsets) (ha : p.AccessAt base offsets)
    (hseen : ∀ v ∈ base :: offsets, Seen p c v) :
    Remakes p c (buildChannel kind ks x)
      (some ({ kind, operands := (base :: offsets).map p.anew.value,
               deps := ds.map p.anew.value }, [.token])) c := by
  rw [List.forall_mem_cons] at hseen
  refine Remakes.bind (remakes_resolveAll hks hwait (accepts_token hds)) ?_
  exact Remakes.bind (remakes_resolveAccess hx ha hseen.1 hseen.2) (remakes_pure _)

end built

/-! ## Definitions -/

theorem run_define_fresh {name : Source.Name} {f : Frame} (h : name.text ∉ f.names.map (·.1))
    (v : ValueId) (q : Program) (frames : List Frame) :
    (define name v).run ⟨q, f :: frames, []⟩ = ((), ⟨q, f.define name.text v :: frames, []⟩) := by
  have hnone : f.names.lookup name.text = none := by
    refine List.lookup_eq_none_iff.2 fun e he => ?_
    simpa using fun heq : name.text = e.1 => h (heq ▸ List.mem_map_of_mem he)
  show (if (f.names.lookup name.text).isSome then
      error Code.duplicateDefinition name.span s!"value '%{name.text}' is defined more than once"
    else pure () : Lower Unit).run ⟨q, f.define name.text v :: frames, []⟩ = _
  rw [hnone]
  rfl

/-- Names that are new to the innermost frame are defined without objection. -/
theorem run_defines_fresh (pairs : List (Source.Name × ValueId)) (q : Program) (f : Frame)
    (frames : List Frame)
    (h : ((f.names.map (·.1)).reverse ++ pairs.map (·.1.text)).Nodup) :
    (pairs.forM fun (name, v) => define name v).run ⟨q, f :: frames, []⟩ =
      ((), ⟨q, ⟨(pairs.map fun e => (e.1.text, e.2)).reverse ++ f.names, f.isolated⟩ :: frames,
        []⟩) := by
  induction pairs generalizing f with
  | nil => rfl
  | cons e pairs ih =>
    have hnew : e.1.text ∉ f.names.map (·.1) := fun hmem =>
      (List.nodup_append.1 h).2.2 _ (List.mem_reverse.2 hmem) _ List.mem_cons_self rfl
    have h : (((f.define e.1.text e.2).names.map (·.1)).reverse ++
        pairs.map (·.1.text)).Nodup := by
      rw [Frame.define, List.map_cons, List.reverse_cons, List.append_assoc]
      exact h
    show ((define e.1 e.2 >>= fun _ => pairs.forM fun (name, v) => define name v).run _) = _
    rw [StateT.run_bind, run_define_fresh hnew]
    refine (ih (f.define e.1.text e.2) h).trans ?_
    rw [Frame.define, List.map_cons, List.reverse_cons, List.append_assoc]
    rfl

/-- The frame that holds the values, with the frames around it. -/
def Stage.within (c : Stage) (p : Program) (vs : List ValueId) (isolated : Bool) : Stage :=
  ⟨c.made, ⟨p.scope vs, isolated⟩ :: c.frames, c.funcs⟩

theorem map_fst_scope (vs : List ValueId) :
    (p.scope vs).map (·.1) = (vs.map p.valueName).reverse := by
  rw [Program.scope, List.map_reverse, List.map_map]
  rfl

theorem scope_append (vs ws : List ValueId) : p.scope (vs ++ ws) = p.scope ws ++ p.scope vs := by
  rw [Program.scope, List.map_append, List.reverse_append]
  rfl

/-- The results of an operation are defined behind what the frame holds. -/
theorem run_defines_scope (vs : List ValueId) (isolated : Bool) {ws : List ValueId}
    (hns : ns.map Source.Name.plain = ws.map p.sourceName)
    (hfresh : ((vs ++ ws).map p.valueName).Nodup) (q : Program) (frames : List Frame) :
    ((ns.zip (ws.map p.anew.value)).forM fun (name, v) => define name v).run
        ⟨q, ⟨p.scope vs, isolated⟩ :: frames, []⟩ =
      ((), ⟨q, ⟨p.scope (vs ++ ws), isolated⟩ :: frames, []⟩) := by
  have hpairs : (ns.zip (ws.map p.anew.value)).map (fun e => (e.1.text, e.2)) =
      ws.map fun v => (p.valueName v, p.anew.value v) := by
    have hzip : (ns.map Source.Name.text).zip (ws.map p.anew.value) =
        (ns.zip (ws.map p.anew.value)).map (Prod.map Source.Name.text id) := List.zip_map_left
    rw [texts_of_plain hns, List.zip_map'] at hzip
    exact hzip.symm
  have hnames : (ns.zip (ws.map p.anew.value)).map (·.1.text) = ws.map p.valueName := by
    have h := congrArg (List.map Prod.fst) hpairs
    rwa [List.map_map, List.map_map] at h
  rw [run_defines_fresh _ q ⟨p.scope vs, isolated⟩ frames, hpairs, scope_append]
  · rfl
  · rw [map_fst_scope, List.reverse_reverse, hnames, ← List.map_append]
    exact hfresh

/-! ## Adding an operation -/

/-- What is added for an operation, but for the names and types of its results. -/
def copySpec (p : Program) (o : OpId) : OpSpec where
  kind := p.kind o
  operands := (p.op o).operands.map p.anew.value
  deps := (p.op o).deps.map p.anew.value
  regions := (p.op o).regions.map p.anew.block

theorem remakes_addOp {o : OpId} {isolated : Bool} (stmt : Source.Stmt) (hH : Distinct p.history)
    (hpre : c.made ++ .op o :: (p.op o).results.map .value <+: p.history)
    (hparent : .block (p.op o).parent ∈ c.made) (hregions : ∀ b ∈ (p.op o).regions, .block b ∈ c.made)
    (hused : ∀ v ∈ p.used o, .value v ∈ c.made)
    (hns : stmt.results.map Source.Name.plain = (p.op o).results.map p.sourceName)
    (hfresh : ((vs ++ (p.op o).results).map p.valueName).Nodup) :
    Remakes p (c.within p vs isolated)
      (addOp (p.anew.block (p.op o).parent) stmt (copySpec p o) ((p.op o).results.map p.valueType))
      () (Stage.within ⟨c.made ++ .op o :: (p.op o).results.map .value, c.frames, c.funcs⟩ p
        (vs ++ (p.op o).results) isolated) := by
  have hnamed : stmt.results.length = ((p.op o).results.map p.valueType).length := by
    simpa using congrArg List.length hns
  have hresults : (resultNames stmt ((p.op o).results.map p.valueType)).zip
      ((p.op o).results.map p.valueType) = p.shown (p.op o).results := by
    have hnames : stmt.results.map (fun n => some n.text) =
        (p.op o).results.map fun v => some (p.valueName v) := by
      have h := congrArg (List.map some) (texts_of_plain hns)
      rwa [List.map_map, List.map_map] at h
    rw [resultNames, if_pos hnamed, hnames, List.zip_map']
    rfl
  obtain ⟨message, heq⟩ := addOp_eq (p.anew.block (p.op o).parent) stmt (copySpec p o)
    ((p.op o).results.map p.valueType)
  rw [heq, if_pos (by simp [hnamed]), hresults]
  intro s hs
  obtain ⟨q, frames, ds⟩ := s
  obtain ⟨hmirrors, rfl, rfl⟩ := hs
  have hvalues := hpre.filterMap Entity.value?
  rw [← Entity.values, ← Entity.values, Entity.values_append, (Entity.lists_op _ _).2.1] at hvalues
  have hnew : q.newResults
      { copySpec p o with results := p.shown (p.op o).results, span := some stmt.span } =
        (p.op o).results.map p.anew.value :=
    (Program.value_addValues_shown hH.values hvalues hmirrors.size_values (.result ⟨q.ops.size⟩)).1
  have hrun := run_addNamed (p.anew.block (p.op o).parent) stmt.results
    (stmt.results.length = ((p.op o).results.map p.valueType).length)
    { copySpec p o with results := p.shown (p.op o).results, span := some stmt.span } q
    (⟨p.scope vs, isolated⟩ :: c.frames) []
  rw [if_pos hnamed, hnew, run_defines_scope vs isolated hns hfresh] at hrun
  exact remakes_of_run hrun ⟨hmirrors.appendOp hH hpre hparent hregions hused _, rfl, rfl⟩

/-! ## Operands that precede a body -/

/-- Bindings are read as those of the values that they spell. -/
theorem bindings_of_plain {bs : List Source.Binding} {inner outer : List ValueId}
    (h : bs.map Source.Binding.plain = p.sourceBindings (inner.zip outer))
    (hlen : inner.length = outer.length) :
    (bs.map (·.inner)).map Source.Name.plain = inner.map p.sourceName ∧
      (bs.map (·.outer)).map Source.Name.plain = outer.map p.sourceName ∧
        (bs.map (·.inner)).length = outer.length := by
  have hinner := congrArg (List.map Source.Binding.inner) h
  have houter := congrArg (List.map Source.Binding.outer) h
  have hbs := congrArg List.length h
  rw [Program.sourceBindings, List.map_map, List.map_map] at hinner houter
  rw [Program.sourceBindings, List.length_map, List.length_map, List.length_zip, hlen,
    Nat.min_self] at hbs
  have hfst : (inner.zip outer).map (·.1) = inner := List.map_fst_zip (Nat.le_of_eq hlen)
  have hsnd : (inner.zip outer).map (·.2) = outer := List.map_snd_zip (Nat.le_of_eq hlen.symm)
  refine ⟨?_, ?_, by rw [List.length_map, hbs]⟩
  · rw [← hfst, List.map_map, List.map_map]
    exact hinner
  · rw [← hsnd, List.map_map, List.map_map]
    exact houter

theorem remakes_loopOperands (var : Source.Name) {lower upper step : Source.Name} {carried : List Source.Binding}
    {l u t : ValueId} {inner inits : List ValueId} (hlower : lower.plain = p.sourceName l)
    (hupper : upper.plain = p.sourceName u) (hstep : step.plain = p.sourceName t)
    (hcarried : carried.map Source.Binding.plain = p.sourceBindings (inner.zip inits))
    (hlen : inner.length = inits.length) (hbounds : p.AllOf .index [l, u, t])
    (hseen : ∀ v ∈ l :: u :: t :: inits, Seen p c v) :
    Remakes p c (loopOperands var lower upper step carried)
      (some ((l :: u :: t :: inits).map p.anew.value,
        (var, .index) :: (carried.map (·.inner)).zip (inits.map p.valueType))) c := by
  obtain ⟨-, houter, -⟩ := bindings_of_plain hcarried hlen
  have hnames : [lower, upper, step].map Source.Name.plain = [l, u, t].map p.sourceName := by
    rw [List.map_cons, List.map_cons, List.map_singleton, hlower, hupper, hstep]
    rfl
  have hinits : ∀ v ∈ inits, Seen p c v := fun v hv => hseen v (by simp [hv])
  unfold loopOperands
  refine Remakes.bind (remakes_resolveAll hnames (fun v hv => hseen v ?_) (accepts_index hbounds)) ?_
  · exact List.mem_append_left inits hv
  refine Remakes.bind (remakes_resolveAll houter hinits fun _ _ => rfl) ?_
  refine remakes_get fun s hs => ?_
  have htypes : (inits.map p.anew.value).map s.program.valueType = inits.map p.valueType := by
    rw [List.map_map]
    exact List.map_congr_left fun v hv => (hs.mirrors.value v (hinits v hv).made).1
  rw [← htypes]
  exact remakes_pure _

theorem remakes_refuseToken (binding : Source.Binding) (hv : .value v ∈ c.made)
    (htoken : p.valueType v ≠ .token) :
    Remakes p c (refuseToken binding (p.anew.value v)) false c := by
  unfold refuseToken
  refine remakes_get fun s hs => ?_
  rw [(hs.mirrors.value v hv).1]
  have hnot : (p.valueType v).isToken = false := by
    cases htype : p.valueType v with
    | token => exact absurd htype htoken
    | index => rfl
    | memref => rfl
  rw [hnot]
  exact remakes_pure _

theorem remakes_refuseTokens (args : List Source.Binding) (hvs : ∀ v ∈ vs, .value v ∈ c.made)
    (htokens : ∀ v ∈ vs, p.valueType v ≠ .token) :
    Remakes p c (refuseTokens (args.zip (vs.map p.anew.value))) false c := by
  induction args generalizing vs with
  | nil => exact remakes_pure _
  | cons x args ih =>
    cases vs with
    | nil => exact remakes_pure _
    | cons v vs =>
      rw [List.forall_mem_cons] at hvs htokens
      refine Remakes.bind (remakes_refuseToken x hvs.1 htokens.1) ?_
      exact Remakes.bind (ih hvs.2 htokens.2) (remakes_pure _)

theorem remakes_hierarchyOperands (ids : List Source.Name) {deps : List Source.Name}
    {args : List Source.Binding}
    {ds params : List ValueId} (hdeps : deps.map Source.Name.plain = ds.map p.sourceName)
    (hargs : args.map Source.Binding.plain = p.sourceBindings (params.zip vs))
    (hlen : params.length = vs.length) (hds : p.AllOf .token ds)
    (htokens : ∀ v ∈ vs, p.valueType v ≠ .token) (hseen : ∀ v ∈ vs ++ ds, Seen p c v) :
    Remakes p c (hierarchyOperands deps ids args)
      (some (ds.map p.anew.value, vs.map p.anew.value,
        ids.map (·, .index) ++ (args.map (·.inner)).zip (vs.map p.valueType))) c := by
  obtain ⟨-, houter, -⟩ := bindings_of_plain hargs hlen
  rw [List.forall_mem_append] at hseen
  unfold hierarchyOperands
  refine Remakes.bind (remakes_resolveAll hdeps hseen.2 (accepts_token hds)) ?_
  refine Remakes.bind (remakes_resolveAll houter hseen.1 fun _ _ => rfl) ?_
  refine Remakes.bind (remakes_refuseTokens args (fun v hv => (hseen.1 v hv).made) htokens) ?_
  refine remakes_get fun s hs => ?_
  have htypes : (vs.map p.anew.value).map s.program.valueType = vs.map p.valueType := by
    rw [List.map_map]
    exact List.map_congr_left fun v hv => (hs.mirrors.value v (hseen.1 v hv).made).1
  rw [← htypes]
  exact remakes_pure _

end Lowering

end AsyncOrder
