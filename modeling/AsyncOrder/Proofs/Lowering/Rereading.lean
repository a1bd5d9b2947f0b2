import AsyncOrder.Proofs.Lowering.Remaking
import AsyncOrder.Proofs.Program.Printing

/-!
# Reading the text of a program

A program is `Tidy` when its blocks are laid out as lowering lays them out, and `Readable` when,
wherever a value is used, its name means it as well.  Then lowering the tree that its text spells
makes it anew.
-/

namespace AsyncOrder

open Entity (numbering Distinct)
open Lowering (bodyRegions Orderly Complete Stands isRank)

namespace Program

variable {p : Program} {o z x : OpId} {b : BlockId} {v : ValueId} {n : String} {vs : List ValueId}
variable {depth : Nat} {pre ops : List OpId}

/-- At `o` the name of `v` means `v`. -/
def Calls (p : Program) (o : OpId) (v : ValueId) : Prop :=
  p.Means (fun v => some (p.valueName v)) (fun _ _ _ => False) o (p.valueName v) v

structure Tidy (p : Program) : Prop where
  laidOut : ∀ o, p.isLive o = true → p.LaidOut o
  nested : ∀ o, p.isLive o = true → ∀ z ∈ p.nested o, p.isLive z = true
  bodies : ∀ f ∈ p.funcs, ∀ o ∈ (p.block f.body).ops, p.isLive o = true
  shallow : ∀ f ∈ p.funcs, p.Shallow (p.blocks.size + 1) (p.block f.body).ops
  parent : ∀ b o, p.isLive o = true → o ∈ (p.block b).ops → (p.op o).parent = b
  owner : ∀ o, p.isLive o = true → ∀ b ∈ (p.op o).regions, (p.block b).parentOp = some o
  root : ∀ f ∈ p.funcs, (p.block f.body).parentOp = none
  orderly : ∀ f ∈ p.funcs, Orderly p .func f.body
  complete : ∀ o, p.isLive o = true →
    List.Forall₂ (Complete p) (bodyRegions (p.kind o)) (p.op o).regions
  ascending : (Entity.ops p.history).Pairwise fun o z => o.index < z.index
  sorted : ∀ b, (p.block b).ops.Pairwise fun o z => o.index < z.index
  distinct : Distinct p.history
  ranks : ∀ v (rank : Nat) space, p.valueType v = .memref rank space → isRank rank = true
  /-- The values of a block have names of their own. -/
  names : ∀ b, ((p.locals b).map p.valueName).Nodup

structure Readable (p : Program) : Prop extends p.Tidy where
  called : ∀ o, p.isLive o = true → ∀ v ∈ p.used o, p.Calls o v

/-- What a block holds behind some of its operations. -/
def soFar (p : Program) (b : BlockId) (ops : List OpId) : List ValueId :=
  (p.block b).args ++ ops.flatMap fun z => (p.op z).results

theorem soFar_append (b : BlockId) (ops ops' : List OpId) :
    p.soFar b (ops ++ ops') = p.soFar b ops ++ ops'.flatMap fun z => (p.op z).results := by
  rw [soFar, List.flatMap_append, ← List.append_assoc]
  rfl

theorem soFar_prefix (h : (p.block b).ops = pre ++ ops) : p.soFar b pre <+: p.locals b := by
  have hlocals : p.locals b = p.soFar b (pre ++ ops) := by rw [← h]; rfl
  rw [hlocals, soFar_append]
  exact List.prefix_append _ _

/-! ## What has been made -/

/-- Every operation of the history is live and stands in its block. -/
theorem Tidy.mem_ops_of_mem_history (hp : p.Tidy) (h : .op x ∈ p.history) :
    p.isLive x = true ∧ x ∈ (p.block (p.op x).parent).ops := by
  have hop : ∀ depth o b, p.isLive o = true → o ∈ (p.block b).ops → .op x ∈ p.opHistory depth o →
      p.isLive x = true ∧ x ∈ (p.block (p.op x).parent).ops := by
    intro depth
    induction depth with
    | zero => exact fun o b _ _ h => absurd h List.not_mem_nil
    | succ depth ih =>
      intro o b ho hb h
      rcases op_mem_opHistory.1 h with ⟨c, hc, h⟩ | rfl
      · obtain ⟨z, hz, h⟩ := op_mem_blockHistory.1 h
        exact ih z c (hp.nested o ho z (List.mem_flatMap.2 ⟨c, hc, hz⟩)) hz h
      · exact ⟨ho, by rwa [hp.parent b x ho hb]⟩
  obtain ⟨f, hf, h⟩ := List.mem_flatMap.1 h
  obtain ⟨z, hz, h⟩ := op_mem_blockHistory.1 h
  exact hop _ z f.body (hp.bodies f hf z hz) hz h

/-- When all of its operations have been made, a block has them in order. -/
theorem Tidy.made_ops (hp : p.Tidy) {made : List Entity} (hpre : made <+: p.history)
    (hmade : ∀ o ∈ (p.block b).ops, .op o ∈ made ∧ p.isLive o = true) :
    (Entity.ops made).filter (fun o => (p.op o).parent = b) = (p.block b).ops := by
  refine List.Perm.eq_of_pairwise
    (fun x y _ _ hxy hyx => absurd hxy (Nat.lt_asymm hyx)) ?_ (hp.sorted b) ?_
  · exact (hp.ascending.sublist (hpre.filterMap Entity.op?).sublist).filter _
  · refine (List.perm_ext_iff_of_nodup ?_ ?_).2 fun o => ?_
    · exact (hp.distinct.ops.sublist (hpre.filterMap Entity.op?).sublist).filter _
    · exact (hp.sorted b).imp fun {x y} (h : x.index < y.index) heq => Nat.lt_irrefl _ (heq ▸ h)
    · rw [List.mem_filter, Entity.mem_ops, decide_eq_true_eq]
      constructor
      · rintro ⟨ho, rfl⟩
        exact (hp.mem_ops_of_mem_history (hpre.subset ho)).2
      · exact fun ho => ⟨(hmade o ho).1, hp.parent b o (hmade o ho).2 ho⟩

/-- What stands before an operation. -/
theorem Tidy.before_eq (hp : p.Tidy) (ho : p.isLive o = true)
    (hops : (p.block b).ops = pre ++ o :: ops) : p.before o = p.soFar b pre := by
  have hmem : o ∈ (p.block b).ops := hops ▸ List.mem_append_right _ List.mem_cons_self
  have hne : ∀ z ∈ pre, decide (z ≠ o) = true := by
    intro z hz
    have hsorted := hops ▸ hp.sorted b
    have hlt := (List.pairwise_append.1 hsorted).2.2 z hz o List.mem_cons_self
    exact decide_eq_true fun heq => Nat.lt_irrefl _ (heq ▸ hlt)
  rw [before, hp.parent b o ho hmem, hops, List.takeWhile_append_of_pos hne,
    List.takeWhile_cons_of_neg (by simp), List.append_nil]
  rfl

end Program

namespace Lowering

variable {p : Program} {o z : OpId} {b : BlockId} {v : ValueId} {n : String}
variable {made made' : List Entity} {isolated : Bool} {frames : List Frame} {c : Stage}

/-! ## Frames around a block -/

/-- The frames around the frame of a block, which is isolated or not. -/
inductive Around (p : Program) (made : List Entity) : BlockId → Bool → List Frame → Prop
  | root {b : BlockId} : (p.block b).parentOp = none → Around p made b false []
  | body {b : BlockId} {z : OpId} {isolated : Bool} {frames : List Frame} :
      (p.block b).parentOp = some z → (∀ v ∈ p.before z, .value v ∈ made) →
      Around p made (p.op z).parent isolated frames →
      Around p made b (p.kind z).isHierarchy (⟨p.scope (p.before z), isolated⟩ :: frames)

theorem Around.mono (h : Around p made b isolated frames) (hsub : made ⊆ made') :
    Around p made' b isolated frames := by
  induction h with
  | root hroot => exact .root hroot
  | body howner hbefore _ ih => exact .body howner (fun v hv => hsub (hbefore v hv)) ih

theorem lookup_scope (vs : List ValueId) : (p.scope vs).lookup n =
    (Program.latest? (fun v => some (p.valueName v)) n vs).map p.anew.value := by
  unfold Program.scope Program.latest?
  rw [← List.map_reverse]
  induction vs.reverse with
  | nil => rfl
  | cons v vs ih =>
    rw [List.map_cons, List.lookup_cons, List.find?_cons, ih]
    by_cases hv : p.valueName v = n
    · simp [hv]
    · have hne : (n == p.valueName v) = false := by simpa using Ne.symm hv
      simp [hv, hne]

/-- What a name means is found in the frames. -/
theorem lookup_of_means
    (hmeans : p.Means (fun v => some (p.valueName v)) (fun _ _ _ => False) o n v)
    (hbefore : ∀ v ∈ p.before o, .value v ∈ made)
    (haround : Around p made (p.op o).parent isolated frames) :
    lookup n (⟨p.scope (p.before o), isolated⟩ :: frames) = some (p.anew.value v, false) ∧
      .value v ∈ made := by
  induction hmeans generalizing isolated frames with
  | @inside o n v hv =>
    rw [lookup, lookup_scope, hv]
    exact ⟨rfl, hbefore v (Program.mem_of_latest? hv).1⟩
  | @outer o z n v hnone hz hkind _ ih =>
    rw [lookup, lookup_scope, hnone]
    have hz : (p.block (p.op o).parent).parentOp = some z := hz
    generalize (p.op o).parent = b at hz haround
    cases haround with
    | root hroot => rw [hroot] at hz; cases hz
    | body howner hbefore' haround' =>
      obtain rfl := Option.some.inj (howner.symm.trans hz)
      obtain ⟨hlookup, hmade⟩ := ih hbefore' haround'
      refine ⟨?_, hmade⟩
      rw [hlookup, hkind]
      rfl
  | beyond _ hfalse => exact hfalse.elim

/-- An operation of a block is reached: its frame holds what stands before it. -/
structure Reached (p : Program) (c : Stage) (o : OpId) (isolated : Bool) : Prop where
  live : p.isLive o = true
  before : ∀ v ∈ p.before o, .value v ∈ c.made
  around : Around p c.made (p.op o).parent isolated c.frames

theorem Reached.seen (hp : p.Readable) (h : Reached p c o isolated) :
    ∀ v ∈ p.used o, Seen p (c.within p (p.before o) isolated) v := by
  intro v hv
  obtain ⟨hfound, hmade⟩ := lookup_of_means (hp.called o h.live v hv) h.before h.around
  exact ⟨hfound, hmade⟩

/-! ## Bodies -/

/-- What has been made behind a block and its operations. -/
def Stage.behind (c : Stage) (es : List Entity) : Stage := ⟨c.made ++ es, c.frames, c.funcs⟩

theorem behind_nil : c.behind [] = c := by rw [Stage.behind, List.append_nil]

theorem behind_append (es es' : List Entity) : c.behind (es ++ es') = (c.behind es).behind es' := by
  rw [Stage.behind, ← List.append_assoc]
  rfl

theorem remakes_openSite (funcs : List Func) {step : Program → BlockId × Program}
    (hstep : ∀ q, p.Mirrors p.history c.made c.funcs q → (step q).1 = p.anew.block b ∧
      p.Mirrors p.history (c.made ++ .block b :: (p.block b).args.map .value) funcs (step q).2)
    {names : List Source.Name}
    (hns : names.map Source.Name.plain = (p.block b).args.map p.sourceName)
    (hfresh : ((p.block b).args.map p.valueName).Nodup) (isolated : Bool) :
    Remakes p c (openSite step isolated names) (p.anew.block b)
      (Stage.within ⟨c.made ++ .block b :: (p.block b).args.map .value, c.frames, funcs⟩ p
        (p.block b).args isolated) := by
  intro s hs
  obtain ⟨q, frames, ds⟩ := s
  obtain ⟨hmirrors, rfl, rfl⟩ := hs
  obtain ⟨hid, hmirrors'⟩ := hstep q hmirrors
  have hargs := congrArg Block.args
    (hmirrors'.block b (List.mem_append_right _ List.mem_cons_self))
  have hrun : (openSite step isolated names).run ⟨q, c.frames, []⟩ = ((step q).1,
      ((names.zip ((step q).2.block (step q).1).args).forM fun e => define e.1 e.2).run
        ⟨(step q).2, ⟨[], isolated⟩ :: c.frames, []⟩ |>.2) := rfl
  have hdefine := run_defines_scope [] isolated hns hfresh (step q).2 c.frames
  rw [hid, hargs] at hrun
  have hrun := hrun.trans (congrArg (p.anew.block b, ·.2) hdefine)
  exact remakes_of_run hrun ⟨hmirrors', rfl, rfl⟩

/-- A body that has its terminator is left as it is. -/
theorem remakes_closeBody (hp : p.Readable) {region : Region} (hb : .block b ∈ c.made)
    (hpre : c.made <+: p.history)
    (hmade : ∀ o ∈ (p.block b).ops, .op o ∈ c.made ∧ p.isLive o = true)
    (hends : region = .func ∨ (p.terminator? b).isSome = true) (span : Span) :
    Remakes p c (closeBody (p.anew.block b) region span) () c := by
  unfold closeBody
  refine remakes_get fun s hs => ?_
  rw [hs.mirrors.terminator? hb (hp.made_ops hpre hmade)]
  cases hy : p.terminator? b with
  | none =>
    obtain rfl : region = .func := by simpa [hy] using hends
    exact remakes_pure ()
  | some y => exact remakes_pure ()

theorem remakes_leave (vs : List ValueId) (isolated : Bool) :
    Remakes p (c.within p vs isolated) leave () c := by
  intro s hs
  exact ⟨rfl, hs.mirrors, congrArg List.tail hs.frames, hs.silent⟩

theorem remakes_yieldedTypes (hp : p.Readable) (hb : .block b ∈ c.made)
    (hpre : c.made <+: p.history)
    (hmade : ∀ o ∈ (p.block b).ops, .op o ∈ c.made ∧ p.isLive o = true) :
    Remakes p c (yieldedTypes (p.anew.block b)) (p.signature b).yields c := by
  unfold yieldedTypes
  refine remakes_get fun s hs => ?_
  rw [← hs.mirrors.yields hb (hp.made_ops hpre hmade), Program.signature]
  simp only
  split
  · next y hy =>
    rw [hy]
    exact remakes_pure _
  · next hy =>
    rw [hy]
    exact remakes_pure _

/-- A block has been opened, and some of its operations have been made. -/
structure Opened (p : Program) (c : Stage) (b : BlockId) (isolated : Bool) (pre : List OpId) :
    Prop where
  block : .block b ∈ c.made
  before : ∀ v ∈ p.soFar b pre, .value v ∈ c.made
  around : Around p c.made b isolated c.frames

/-- Statements that spell the operations of a block which nest less than `depth` deep make them
anew. -/
def Refills (p : Program) (depth : Nat) : Prop :=
  ∀ {c : Stage} {region : Region} {b : BlockId} {isolated : Bool} (pre : List OpId)
    {ops : List OpId} {stmts : List Source.Stmt}, (p.block b).ops = pre ++ ops → (∀ o ∈ ops, p.isLive o = true) →
    p.Shallow depth ops → stmts.map Source.Stmt.plain = ops.map (p.sourceStmt depth) →
    Orderly p region b → Opened p c b isolated pre →
    c.made ++ ops.flatMap (p.opHistory depth) <+: p.history →
    Remakes p (c.within p (p.soFar b pre) isolated) (lowerStmts (p.anew.block b) region stmts) ()
      ((c.behind (ops.flatMap (p.opHistory depth))).within p (p.soFar b (pre ++ ops)) isolated)

variable {depth : Nat} {region : Region}

theorem Reached.behind (h : Reached p c o isolated) (es : List Entity) :
    Reached p (c.behind es) o isolated where
  live := h.live
  before v hv := List.mem_append_left _ (h.before v hv)
  around := h.around.mono (List.subset_append_left _ _)

theorem op_mem_history (h : p.Shallow depth [o]) : .op o ∈ p.opHistory depth o := by
  cases depth with
  | zero => exact absurd h (List.cons_ne_nil _ _)
  | succ depth => exact Program.op_mem_opHistory.2 (Or.inr rfl)

theorem made_blockHistory (hp : p.Readable) (hz : p.isLive z = true) (hb : b ∈ (p.op z).regions)
    (hshallow : p.Shallow depth (p.block b).ops)
    (hmade : p.blockHistory (p.opHistory depth) b ⊆ made) :
    ∀ o ∈ (p.block b).ops, .op o ∈ made ∧ p.isLive o = true := by
  intro o ho
  refine ⟨hmade (Program.op_mem_blockHistory.2 ⟨o, ho, ?_⟩), ?_⟩
  · exact op_mem_history (Program.shallow_of_mem hshallow ho)
  · exact hp.nested z hz o (List.mem_flatMap.2 ⟨b, hb, ho⟩)

theorem remakes_inRegion (region : Region) (args : List (Source.Name × ValueType))
    (hp : p.Readable) (hfill : Refills p depth) (hz : Reached p c z isolated)
    (hb : b ∈ (p.op z).regions) (hcomplete : Complete p region b)
    (hregion : decide (region = .hierarchy) = (p.kind z).isHierarchy)
    (hshallow : p.Shallow depth (p.block b).ops) {stmts : List Source.Stmt}
    (hstmts : stmts.map Source.Stmt.plain = (p.block b).ops.map (p.sourceStmt depth))
    (hnames : (args.map (·.1)).map Source.Name.plain = (p.block b).args.map p.sourceName)
    (htypes : args.map (·.2) = (p.block b).args.map p.valueType) (span : Span)
    (hpre : c.made ++ p.blockHistory (p.opHistory depth) b <+: p.history) :
    Remakes p (c.within p (p.before z) isolated)
      (inRegion region args span fun block => lowerStmts block region stmts) (p.anew.block b)
      ((c.behind (p.blockHistory (p.opHistory depth) b)).within p (p.before z) isolated) := by
  have hlocals : (p.block b).args <+: p.locals b := List.prefix_append _ _
  have hfresh := (hp.names b).sublist (hlocals.sublist.map p.valueName)
  have hargs : bodyArgs args = p.shown (p.block b).args := by
    have hsome := congrArg (List.map some) (texts_of_plain hnames)
    rw [List.map_map, List.map_map, List.map_map] at hsome
    have hzip := congrArg₂ List.zip hsome htypes
    rwa [List.zip_map', List.zip_map'] at hzip
  have hhistory : c.made ++ p.blockHistory (p.opHistory depth) b =
      (c.made ++ .block b :: (p.block b).args.map .value) ++
        (p.block b).ops.flatMap (p.opHistory depth) := by
    rw [List.append_assoc]
    rfl
  have hopen : c.made ++ .block b :: (p.block b).args.map .value <+: p.history :=
    (hhistory ▸ List.prefix_append _ _ : _ <+: _).trans hpre
  rw [inRegion_eq]
  refine Remakes.bind (remakes_openSite c.funcs (fun q hq => ?_) hnames hfresh _) ?_
  · rw [hargs]
    exact ⟨(hq.next_block hp.distinct hopen).symm, hq.addBlock hp.distinct hopen⟩
  have hopened : Opened p ⟨c.made ++ .block b :: (p.block b).args.map .value,
      (c.within p (p.before z) isolated).frames, c.funcs⟩ b (decide (region = .hierarchy)) [] := by
    refine ⟨List.mem_append_right _ List.mem_cons_self, fun v hv => ?_, ?_⟩
    · rw [Program.soFar, List.flatMap_nil, List.append_nil] at hv
      exact List.mem_append_right _ (List.mem_cons_of_mem _ (List.mem_map_of_mem hv))
    · rw [hregion]
      exact .body (hp.owner z hz.live b hb) (fun v hv => List.mem_append_left _ (hz.before v hv))
        (hz.around.mono (List.subset_append_left _ _))
  have hsub : p.blockHistory (p.opHistory depth) b ⊆
      c.made ++ p.blockHistory (p.opHistory depth) b := List.subset_append_right _ _
  have hmade := made_blockHistory hp hz.live hb hshallow hsub
  have hfilled : Remakes p
      (Stage.within ⟨c.made ++ .block b :: (p.block b).args.map .value,
        (c.within p (p.before z) isolated).frames, c.funcs⟩ p (p.block b).args
        (decide (region = .hierarchy)))
      (lowerStmts (p.anew.block b) region stmts) ()
      (Stage.within ((c.behind (p.blockHistory (p.opHistory depth) b)).within p (p.before z)
        isolated) p (p.soFar b (p.block b).ops) (decide (region = .hierarchy))) := by
    have h := hfill [] rfl (fun o ho => (hmade o ho).2) hshallow hstmts hcomplete.1 hopened
      (hhistory ▸ hpre)
    rw [Program.soFar, List.flatMap_nil, List.append_nil, Stage.behind, ← hhistory] at h
    exact h
  refine Remakes.bind hfilled ?_
  refine Remakes.bind (remakes_closeBody hp ?_ hpre hmade (Or.inr hcomplete.2) span) ?_
  · exact hsub List.mem_cons_self
  · exact Remakes.bind (remakes_leave _ _) (remakes_pure _)

/-! ## Operations -/

/-- What building an operation returns when it is made anew. -/
theorem copySpec_of_has {kind : OpKind} {operands deps : List ValueId} {types : List ValueType}
    {regions : List BlockId} (h : p.Has o kind operands deps types regions) :
    (copySpec p o, (p.op o).results.map p.valueType) =
      ({ kind, operands := operands.map p.anew.value, deps := deps.map p.anew.value,
         regions := regions.map p.anew.block }, types) := by
  rw [copySpec, h.kind, h.operands, h.deps, h.types, h.regions]

/-- What is returned for an operation, once its bodies have been made. -/
def Rebuilds (p : Program) (c : Stage) (o : OpId) (isolated : Bool) (depth : Nat)
    (m : Lower Built) : Prop :=
  Remakes p (c.within p (p.before o) isolated) m
    (some (copySpec p o, (p.op o).results.map p.valueType))
    ((c.behind ((p.op o).regions.flatMap (p.blockHistory (p.opHistory depth)))).within p
      (p.before o) isolated)

/-- An operation without regions. -/
theorem rebuilds_leaf {kind : OpKind} {operands deps : List ValueId} {types : List ValueType}
    (h : p.Has o kind operands deps types []) {m : Lower Built}
    (hm : Remakes p (c.within p (p.before o) isolated) m
      (some ({ kind, operands := operands.map p.anew.value, deps := deps.map p.anew.value }, types))
      (c.within p (p.before o) isolated)) : Rebuilds p c o isolated depth m := by
  rw [Rebuilds, copySpec_of_has h, h.regions, List.flatMap_nil, behind_nil]
  exact hm

theorem seen_of_has (hseen : ∀ v ∈ p.used o, Seen p c v) {kind : OpKind}
    {operands deps : List ValueId} {types : List ValueType} {regions : List BlockId}
    (h : p.Has o kind operands deps types regions) :
    (∀ v ∈ operands, Seen p c v) ∧ ∀ v ∈ deps, Seen p c v := by
  rw [Program.used, h.operands, h.deps] at hseen
  exact List.forall_mem_append.1 hseen

/-- The tree of a body, for operations that nest less than `depth` deep. -/
abbrev bodyTree (p : Program) (depth : Nat) (b : BlockId) : Source.Block :=
  .mk ((p.block b).ops.map (p.sourceStmt depth)) Source.nowhere

theorem stmts_of_plain {stmts : List Source.Stmt} {span : Span}
    (h : (Source.Block.mk stmts span).plain = bodyTree p depth b) :
    stmts.map Source.Stmt.plain = (p.block b).ops.map (p.sourceStmt depth) := by
  rw [Source.Block.plain, Source.plainStmts_eq_map] at h
  exact (Source.Block.mk.inj h).1

section regions

variable (hp : p.Readable) (hfill : Refills p depth) (ho : Reached p c o isolated)
variable (hpre : c.made ++ (p.op o).regions.flatMap (p.blockHistory (p.opHistory depth)) <+:
  p.history)
variable (hshallow : p.Shallow depth (p.nested o)) {stmts : List Source.Stmt} (span bodySpan : Span)
include hp hfill ho hpre hshallow

theorem rebuilds_compute {deps : List Source.Name} {ds : List ValueId}
    (hdeps : deps.map Source.Name.plain = ds.map p.sourceName) (hds : p.AllOf .token ds)
    (hargs : (p.block b).args = [])
    (h : p.Has o .compute [] ds (.token :: (p.signature b).yields) [b])
    (hstmts : (Source.Block.mk stmts bodySpan).plain = bodyTree p depth b) :
    Rebuilds p c o isolated depth (buildOp span (.compute deps (.mk stmts bodySpan))) := by
  have hcomplete := hp.complete o ho.live
  rw [h.kind, h.regions] at hcomplete
  have hb : b ∈ (p.op o).regions := h.regions ▸ List.mem_singleton_self b
  rw [h.regions, List.flatMap_singleton] at hpre
  have hdeep := Program.shallow_flatMap.1 hshallow b hb
  rw [Rebuilds, copySpec_of_has h, h.regions, List.flatMap_singleton, buildOp]
  refine Remakes.bind (remakes_resolveAll hdeps (seen_of_has (ho.seen hp) h).2
    (accepts_token hds)) ?_
  have hregion := remakes_inRegion .compute [] hp hfill ho hb
    (List.forall₂_cons.1 hcomplete).1 (by rw [h.kind]; rfl) hdeep (stmts_of_plain hstmts)
    (by rw [hargs]; rfl) (by rw [hargs]; rfl) bodySpan hpre
  refine Remakes.bind hregion ?_
  have hsub : p.blockHistory (p.opHistory depth) b ⊆
      c.made ++ p.blockHistory (p.opHistory depth) b := List.subset_append_right _ _
  refine Remakes.bind (remakes_yieldedTypes hp (hsub List.mem_cons_self) hpre
    (made_blockHistory hp ho.live hb hdeep hsub)) ?_
  exact remakes_pure _

theorem rebuilds_loop {kind : LoopKind} {var lower upper step : Source.Name}
    {carried : List Source.Binding} {l u t x : ValueId} {inits inner : List ValueId}
    (hvar : var.plain = p.sourceName x) (hlower : lower.plain = p.sourceName l)
    (hupper : upper.plain = p.sourceName u) (hstep : step.plain = p.sourceName t)
    (hcarried : carried.map Source.Binding.plain = p.sourceBindings (inner.zip inits))
    (hbounds : p.AllOf .index [l, u, t]) (hargs : (p.block b).args = x :: inner)
    (hx : p.valueType x = .index) (htypes : inner.map p.valueType = inits.map p.valueType)
    (h : p.Has o (.loop kind) (l :: u :: t :: inits) [] (inits.map p.valueType) [b])
    (hstmts : (Source.Block.mk stmts bodySpan).plain = bodyTree p depth b) :
    Rebuilds p c o isolated depth
      (buildOp span (.loop kind var lower upper step carried (.mk stmts bodySpan))) := by
  have hcomplete := hp.complete o ho.live
  rw [h.kind, h.regions] at hcomplete
  have hb : b ∈ (p.op o).regions := h.regions ▸ List.mem_singleton_self b
  rw [h.regions, List.flatMap_singleton] at hpre
  have hdeep := Program.shallow_flatMap.1 hshallow b hb
  have hlen : inner.length = inits.length := by simpa using congrArg List.length htypes
  obtain ⟨hinner, -, hlen'⟩ := bindings_of_plain hcarried hlen
  have hlen' : (carried.map (·.inner)).length = (inits.map p.valueType).length :=
    hlen'.trans (List.length_map _).symm
  rw [Rebuilds, copySpec_of_has h, h.regions, List.flatMap_singleton, buildOp]
  refine Remakes.bind (remakes_loopOperands var hlower hupper hstep hcarried hlen hbounds
    (seen_of_has (ho.seen hp) h).1) ?_
  have hnames : (((var, ValueType.index) ::
      (carried.map (·.inner)).zip (inits.map p.valueType)).map (·.1)).map Source.Name.plain =
        (p.block b).args.map p.sourceName := by
    rw [hargs, List.map_cons, List.map_cons, List.map_fst_zip (Nat.le_of_eq hlen'), hinner, hvar,
      List.map_cons]
  have hsnd : ((carried.map (·.inner)).zip (inits.map p.valueType)).map (·.2) =
      inits.map p.valueType := List.map_snd_zip (Nat.le_of_eq hlen'.symm)
  have hregion := remakes_inRegion .loop _ hp hfill ho hb
    (List.forall₂_cons.1 hcomplete).1 (by rw [h.kind]; rfl) hdeep (stmts_of_plain hstmts) hnames
    (by rw [hargs, List.map_cons, List.map_cons, hsnd, hx, htypes]) bodySpan hpre
  refine Remakes.bind hregion ?_
  simp only [List.tail_cons, hsnd]
  exact remakes_pure _

theorem rebuilds_hierarchy {level : Level} {deps ids : List Source.Name}
    {args : List Source.Binding} {ds as is params : List ValueId}
    (hdeps : deps.map Source.Name.plain = ds.map p.sourceName)
    (hids : ids.map Source.Name.plain = is.map p.sourceName)
    (hpairs : args.map Source.Binding.plain = p.sourceBindings (params.zip as))
    (hds : p.AllOf .token ds) (has : ∀ a ∈ as, p.valueType a ≠ .token)
    (hargs : (p.block b).args = is ++ params) (his : p.AllOf .index is)
    (htypes : params.map p.valueType = as.map p.valueType)
    (h : p.Has o (.hierarchy level is.length) as ds [.token] [b])
    (hstmts : (Source.Block.mk stmts bodySpan).plain = bodyTree p depth b) :
    Rebuilds p c o isolated depth
      (buildOp span (.hierarchy level deps ids args (.mk stmts bodySpan))) := by
  have hcomplete := hp.complete o ho.live
  rw [h.kind, h.regions] at hcomplete
  have hb : b ∈ (p.op o).regions := h.regions ▸ List.mem_singleton_self b
  rw [h.regions, List.flatMap_singleton] at hpre
  have hdeep := Program.shallow_flatMap.1 hshallow b hb
  have hlen : params.length = as.length := by simpa using congrArg List.length htypes
  have hlenIds : ids.length = is.length := by simpa using congrArg List.length hids
  obtain ⟨hinner, -, hlen'⟩ := bindings_of_plain hpairs hlen
  have hlen' : (args.map (·.inner)).length = (as.map p.valueType).length :=
    hlen'.trans (List.length_map _).symm
  rw [Rebuilds, copySpec_of_has h, h.regions, List.flatMap_singleton, buildOp]
  obtain ⟨hseen, hwait⟩ := seen_of_has (ho.seen hp) h
  refine Remakes.bind (remakes_hierarchyOperands ids hdeps hpairs hlen hds has
    (List.forall_mem_append.2 ⟨hseen, hwait⟩)) ?_
  have hnames : ((ids.map (·, ValueType.index) ++
      (args.map (·.inner)).zip (as.map p.valueType)).map (·.1)).map Source.Name.plain =
        (p.block b).args.map p.sourceName := by
    rw [hargs, List.map_append, List.map_append, List.map_fst_zip (Nat.le_of_eq hlen'), hinner,
      List.map_append, ← hids, List.map_map, List.map_map]
    rfl
  have hsnd : (ids.map (·, ValueType.index) ++
      (args.map (·.inner)).zip (as.map p.valueType)).map (·.2) =
        (p.block b).args.map p.valueType := by
    have hindex : is.map p.valueType = List.replicate is.length .index :=
      List.eq_replicate_iff.2 ⟨List.length_map _, fun t ht => by
        obtain ⟨v, hv, rfl⟩ := List.mem_map.1 ht
        exact his v hv⟩
    rw [hargs, List.map_append, List.map_append, List.map_snd_zip (Nat.le_of_eq hlen'.symm),
      htypes, hindex, ← hlenIds, List.map_map]
    exact congrArg (· ++ _) List.map_const'
  have hregion := remakes_inRegion .hierarchy _ hp hfill ho hb
    (List.forall₂_cons.1 hcomplete).1 (by rw [h.kind]; rfl) hdeep (stmts_of_plain hstmts) hnames
    hsnd bodySpan hpre
  refine Remakes.bind hregion ?_
  rw [← hlenIds]
  exact remakes_pure _

theorem rebuilds_branch {cond : Source.Name} {stmts' : List Source.Stmt} {bodySpan' : Span}
    {x : ValueId} {b' : BlockId} (hcond : cond.plain = p.sourceName x)
    (hx : p.valueType x = .index) (hargs : (p.block b).args = []) (hargs' : (p.block b').args = [])
    (hyields : (p.signature b').yields = (p.signature b).yields)
    (h : p.Has o .branch [x] [] (p.signature b).yields [b, b'])
    (hstmts : (Source.Block.mk stmts bodySpan).plain = bodyTree p depth b)
    (hstmts' : (Source.Block.mk stmts' bodySpan').plain = bodyTree p depth b') :
    Rebuilds p c o isolated depth
      (buildOp span (.branch cond (.mk stmts bodySpan) (.mk stmts' bodySpan'))) := by
  have hcomplete := hp.complete o ho.live
  rw [h.kind, h.regions] at hcomplete
  obtain ⟨hc, hcomplete⟩ := List.forall₂_cons.1 hcomplete
  have hb : b ∈ (p.op o).regions := h.regions ▸ List.mem_cons_self
  have hb' : b' ∈ (p.op o).regions := h.regions ▸ List.mem_cons_of_mem _ List.mem_cons_self
  have hhistory : c.made ++ (p.op o).regions.flatMap (p.blockHistory (p.opHistory depth)) =
      c.made ++ p.blockHistory (p.opHistory depth) b ++ p.blockHistory (p.opHistory depth) b' := by
    rw [h.regions, List.flatMap_cons, List.flatMap_singleton, List.append_assoc]
  have hdeep := Program.shallow_flatMap.1 hshallow
  rw [Rebuilds, Stage.behind, hhistory, copySpec_of_has h, buildOp]
  rw [hhistory] at hpre
  refine Remakes.bind (remakes_resolve hcond ((seen_of_has (ho.seen hp) h).1 x
    (List.mem_singleton_self x)) (by rw [hx]; rfl)) ?_
  have hthen := remakes_inRegion .branch [] hp hfill ho hb hc
    (by rw [h.kind]; rfl) (hdeep b hb) (stmts_of_plain hstmts) (by rw [hargs]; rfl)
    (by rw [hargs]; rfl) bodySpan ((List.prefix_append _ _).trans hpre)
  refine Remakes.bind hthen ?_
  have helse := remakes_inRegion .branch [] hp hfill
    (ho.behind (p.blockHistory (p.opHistory depth) b)) hb' (List.forall₂_cons.1 hcomplete).1
    (by rw [h.kind]; rfl) (hdeep b' hb') (stmts_of_plain hstmts') (by rw [hargs']; rfl)
    (by rw [hargs']; rfl) bodySpan' hpre
  refine Remakes.bind helse ?_
  have hsub : p.blockHistory (p.opHistory depth) b ⊆
      c.made ++ p.blockHistory (p.opHistory depth) b ++ p.blockHistory (p.opHistory depth) b' :=
    fun x hx => List.mem_append_left _ (List.mem_append_right _ hx)
  have hsub' : p.blockHistory (p.opHistory depth) b' ⊆
      c.made ++ p.blockHistory (p.opHistory depth) b ++ p.blockHistory (p.opHistory depth) b' :=
    List.subset_append_right _ _
  refine Remakes.bind (remakes_yieldedTypes hp (hsub List.mem_cons_self) hpre
    (made_blockHistory hp ho.live hb (hdeep b hb) hsub)) ?_
  refine Remakes.bind (remakes_yieldedTypes hp (hsub' List.mem_cons_self) hpre
    (made_blockHistory hp ho.live hb' (hdeep b' hb') hsub')) ?_
  rw [if_pos hyields.symm]
  exact remakes_pure _

/-- Whatever the form of an operation, what spells it builds it. -/
theorem rebuilds_buildOp {op : Source.Op} (hop : op.plain = p.sourceOp (bodyTree p depth) o) :
    Rebuilds p c o isolated depth (buildOp span op) := by
  have hform := Program.form_of_laidOut (hp.laidOut o ho.live) (bodyTree p depth)
  have hseen := ho.seen hp
  rw [← hop] at hform
  generalize hplain : op.plain = op' at hform
  cases hform with
  | const n h =>
    cases op <;> simp only [Source.Op.plain, reduceCtorEq, Source.Op.const.injEq] at hplain
    subst hplain
    rw [buildOp]
    exact rebuilds_leaf h (remakes_pure _)
  | alloc t v ht h hv =>
    cases op <;> simp only [Source.Op.plain, reduceCtorEq, Source.Op.alloc.injEq] at hplain
    rw [buildOp]
    refine rebuilds_leaf h (remakes_buildAlloc hplain ht (fun rank space heq => ?_) span)
    have hres := h.types
    rw [hv, List.map_singleton, heq] at hres
    exact hp.ranks v rank space (List.singleton_inj.1 hres)
  | dealloc a ha h =>
    cases op <;> simp only [Source.Op.plain, reduceCtorEq, Source.Op.dealloc.injEq] at hplain
    rw [buildOp]
    exact rebuilds_leaf h
      (remakes_buildUnary hplain ((seen_of_has hseen h).1 a (List.mem_singleton_self a)) ha)
  | copy a b ha hb h =>
    cases op <;> simp only [Source.Op.plain, reduceCtorEq, Source.Op.copy.injEq] at hplain
    have hacc : ∀ x ∈ [a, b], Demand.memref.accepts (p.valueType x) = true :=
      List.forall_mem_cons.2 ⟨ha, List.forall_mem_singleton.2 hb⟩
    rw [buildOp]
    exact rebuilds_leaf h
      (remakes_buildBinary hplain.1 hplain.2 (seen_of_has hseen h).1 hacc [])
  | transform as bs h =>
    cases op <;> simp only [Source.Op.plain, reduceCtorEq, Source.Op.transform.injEq] at hplain
    rw [buildOp]
    exact rebuilds_leaf h (remakes_buildTransform hplain.1 hplain.2 (seen_of_has hseen h).1)
  | muli a b hab h =>
    cases op <;> simp only [Source.Op.plain, reduceCtorEq, Source.Op.muli.injEq] at hplain
    rw [buildOp]
    exact rebuilds_leaf h (remakes_buildBinary hplain.1 hplain.2 (seen_of_has hseen h).1
      (accepts_index hab) [.index])
  | addi a b hab h =>
    cases op <;> simp only [Source.Op.plain, reduceCtorEq, Source.Op.addi.injEq] at hplain
    rw [buildOp]
    exact rebuilds_leaf h (remakes_buildBinary hplain.1 hplain.2 (seen_of_has hseen h).1
      (accepts_index hab) [.index])
  | apply as has h =>
    cases op <;> simp only [Source.Op.plain, reduceCtorEq, Source.Op.apply.injEq] at hplain
    rw [buildOp]
    exact rebuilds_leaf h (remakes_buildApply hplain (seen_of_has hseen h).1 has)
  | yield as h =>
    cases op <;> simp only [Source.Op.plain, reduceCtorEq, Source.Op.yield.injEq] at hplain
    rw [buildOp]
    exact rebuilds_leaf h (remakes_buildYield hplain (seen_of_has hseen h).1)
  | compute ds b hds hargs h =>
    cases op <;> simp only [Source.Op.plain, reduceCtorEq, Source.Op.compute.injEq] at hplain
    next deps body =>
    obtain ⟨stmts, bodySpan⟩ := body
    exact rebuilds_compute hp hfill ho hpre hshallow span bodySpan hplain.1 hds hargs h hplain.2
  | transfer ds dst src atDst atSrc hds hdst hsrc h =>
    cases op <;> simp only [Source.Op.plain, reduceCtorEq, Source.Op.transfer.injEq] at hplain
    obtain ⟨hdeps, hx, hy⟩ := hplain
    rw [buildOp]
    exact rebuilds_leaf h (remakes_buildTransfer hdeps hds (seen_of_has hseen h).2 hx hy hdst hsrc
      (seen_of_has hseen h).1)
  | put channel ds base offsets hds ha h =>
    cases op <;> simp only [Source.Op.plain, reduceCtorEq, Source.Op.put.injEq] at hplain
    next channel' deps x =>
    obtain ⟨hchannel, hdeps, hx⟩ := hplain
    obtain rfl : channel'.text = channel := congrArg Source.Name.text hchannel
    rw [buildOp]
    exact rebuilds_leaf h (remakes_buildChannel hdeps hds (seen_of_has hseen h).2 hx ha
      (seen_of_has hseen h).1)
  | get channel ds base offsets hds ha h =>
    cases op <;> simp only [Source.Op.plain, reduceCtorEq, Source.Op.get.injEq] at hplain
    next channel' deps x =>
    obtain ⟨hchannel, hdeps, hx⟩ := hplain
    obtain rfl : channel'.text = channel := congrArg Source.Name.text hchannel
    rw [buildOp]
    exact rebuilds_leaf h (remakes_buildChannel hdeps hds (seen_of_has hseen h).2 hx ha
      (seen_of_has hseen h).1)
  | join ds hds h =>
    cases op <;> simp only [Source.Op.plain, reduceCtorEq, Source.Op.join.injEq] at hplain
    rw [buildOp]
    exact rebuilds_leaf h (remakes_buildJoin hplain hds (seen_of_has hseen h).2)
  | loop kind l u t inits b x inner hbounds hargs hx htypes h =>
    cases op <;> simp only [Source.Op.plain, reduceCtorEq, Source.Op.loop.injEq] at hplain
    next kind' var lower upper step carried body =>
    obtain ⟨rfl, hvar, hlower, hupper, hstep, hcarried, hbody⟩ := hplain
    obtain ⟨stmts, bodySpan⟩ := body
    exact rebuilds_loop hp hfill ho hpre hshallow span bodySpan hvar hlower hupper hstep hcarried
      hbounds hargs hx htypes h hbody
  | branch x b b' hx hargs hargs' hyields h =>
    cases op <;> simp only [Source.Op.plain, reduceCtorEq, Source.Op.branch.injEq] at hplain
    next cond thenBody elseBody =>
    obtain ⟨hcond, hbody, hbody'⟩ := hplain
    obtain ⟨stmts, bodySpan⟩ := thenBody
    obtain ⟨stmts', bodySpan'⟩ := elseBody
    exact rebuilds_branch hp hfill ho hpre hshallow span bodySpan hcond hx hargs hargs' hyields h
      hbody hbody'
  | hierarchy level ds as b is params hds has hargs his htypes h =>
    cases op <;> simp only [Source.Op.plain, reduceCtorEq, Source.Op.hierarchy.injEq] at hplain
    next level' deps ids args body =>
    obtain ⟨rfl, hdeps, hids, hpairs, hbody⟩ := hplain
    obtain ⟨stmts, bodySpan⟩ := body
    exact rebuilds_hierarchy hp hfill ho hpre hshallow span bodySpan hdeps hids hpairs hds has hargs
      his htypes h hbody
  | finish h =>
    cases op <;> simp only [Source.Op.plain, reduceCtorEq] at hplain
    rw [buildOp]
    exact rebuilds_leaf h (remakes_pure _)

end regions

/-! ## Statements -/

/-- What spells an operation may stand where the operation does. -/
theorem allowedIn_of_plain {op : Source.Op} {body : BlockId → Source.Block} {isLast : Bool}
    (hop : op.plain = p.sourceOp body o) (hlaid : p.LaidOut o) (hstands : Stands region (p.kind o))
    (hlast : (p.kind o).isTerminator = true → isLast = true) :
    allowedIn region isLast op = true := by
  have hform := Program.form_of_laidOut hlaid body
  rw [← hop] at hform
  cases op
  case yield vs =>
    rw [Source.Op.plain] at hform
    generalize vs.map Source.Name.plain = ns at hform
    cases hform with
    | yield as h =>
      rw [h.kind] at hstands hlast
      have hregion : region = .compute ∨ region = .loop ∨ region = .branch := hstands
      simpa [allowedIn, hlast rfl, or_assoc] using hregion
  case finish =>
    rw [Source.Op.plain] at hform
    cases hform with
    | finish h =>
      rw [h.kind] at hstands hlast
      have hregion : region = .hierarchy := hstands
      simp [allowedIn, hlast rfl, hregion]
  all_goals rfl

/-- A terminator is the last of the operations that are left. -/
theorem eq_nil_of_isTerminator (hp : p.Readable) (horderly : Orderly p region b)
    {pre ops : List OpId} (hops : (p.block b).ops = pre ++ o :: ops)
    (hkind : (p.kind o).isTerminator = true) : ops = [] := by
  have hmem : o ∈ (p.block b).ops := hops ▸ List.mem_append_right _ List.mem_cons_self
  have hlast := Option.eq_some_of_filter_eq_some (horderly.last o hmem hkind)
  rw [hops, List.getLast?_append, List.getLast?_cons] at hlast
  cases hrev : ops.getLast? with
  | none => exact List.getLast?_eq_none_iff.1 hrev
  | some z =>
    rw [hrev] at hlast
    obtain rfl : z = o := by simpa using hlast
    have hsorted := (List.pairwise_append.1 (hops ▸ hp.sorted b)).2.1
    have hlt := (List.pairwise_cons.1 hsorted).1 z (List.mem_of_getLast? hrev)
    exact absurd hlt (Nat.lt_irrefl _)

/-- What spells an operation makes it anew, with its bodies and its results. -/
theorem remakes_lowerStmt (hp : p.Readable) (hfill : Refills p depth) {pre ops : List OpId}
    (hops : (p.block b).ops = pre ++ o :: ops) (ho : p.isLive o = true)
    (hshallow : p.Shallow depth (p.nested o)) {stmt : Source.Stmt}
    (hstmt : stmt.plain = p.sourceStmt (depth + 1) o) (hopened : Opened p c b isolated pre)
    (hpre : c.made ++ p.opHistory (depth + 1) o <+: p.history) :
    Remakes p (c.within p (p.soFar b pre) isolated) (lowerStmt (p.anew.block b) stmt) ()
      ((c.behind (p.opHistory (depth + 1) o)).within p (p.soFar b (pre ++ [o])) isolated) := by
  have hmem : o ∈ (p.block b).ops := hops ▸ List.mem_append_right _ List.mem_cons_self
  have hparent := hp.parent b o ho hmem
  have hbefore := hp.before_eq ho hops
  have hreached : Reached p c o isolated :=
    ⟨ho, hbefore ▸ hopened.before, hparent.symm ▸ hopened.around⟩
  obtain ⟨results, op, span⟩ := stmt
  obtain ⟨hresults, hop, -⟩ := Source.Stmt.mk.inj hstmt
  have hhistory : c.made ++ p.opHistory (depth + 1) o =
      c.made ++ (p.op o).regions.flatMap (p.blockHistory (p.opHistory depth)) ++
        .op o :: (p.op o).results.map .value := by
    rw [List.append_assoc]
    rfl
  have hregions : c.made ++ (p.op o).regions.flatMap (p.blockHistory (p.opHistory depth)) <+:
      p.history := (hhistory ▸ List.prefix_append _ _ : _ <+: _).trans hpre
  have hbuild := rebuilds_buildOp hp hfill hreached hregions hshallow span hop
  have hscope : p.soFar b (pre ++ [o]) = p.before o ++ (p.op o).results := by
    rw [Program.soFar_append, List.flatMap_singleton, hbefore]
  have hfresh : ((p.before o ++ (p.op o).results).map p.valueName).Nodup := by
    have hsplit : (p.block b).ops = (pre ++ [o]) ++ ops := by rw [hops, List.append_cons]
    rw [← hscope]
    exact (hp.names b).sublist ((Program.soFar_prefix hsplit).sublist.map _)
  rw [lowerStmt, hscope, ← hbefore, ← hparent, Stage.behind, hhistory]
  refine Remakes.bind hbuild ?_
  refine remakes_addOp ⟨results, op, span⟩ hp.distinct (hhistory ▸ hpre)
    (List.mem_append_left _ (hparent.symm ▸ hopened.block)) (fun r hr => ?_) (fun v hv => ?_)
    hresults hfresh
  · exact List.mem_append_right _ (List.mem_flatMap.2 ⟨r, hr, List.mem_cons_self⟩)
  · exact List.mem_append_left _ (hreached.seen hp v hv).made

theorem Opened.next {pre : List OpId} (h : Opened p c b isolated pre)
    (hhistory : ∀ v ∈ (p.op o).results, .value v ∈ p.opHistory depth o) :
    Opened p (c.behind (p.opHistory depth o)) b isolated (pre ++ [o]) where
  block := List.mem_append_left _ h.block
  before v hv := by
    rw [Program.soFar_append, List.flatMap_singleton, List.mem_append] at hv
    rcases hv with hv | hv
    · exact List.mem_append_left _ (h.before v hv)
    · exact List.mem_append_right _ (hhistory v hv)
  around := h.around.mono (List.subset_append_left _ _)

/-- By depth, and along the statements of a block. -/
theorem refills (hp : p.Readable) (depth : Nat) : Refills p depth := by
  induction depth with
  | zero =>
    intro c region b isolated pre ops stmts _ _ hshallow hstmts _ _ _
    obtain rfl : ops = [] := hshallow
    obtain rfl := List.map_eq_nil_iff.1 hstmts
    rw [lowerStmts, List.flatMap_nil, behind_nil, List.append_nil]
    exact remakes_pure ()
  | succ depth ih =>
    intro c region b isolated pre ops stmts hops hlive hshallow hstmts horderly hopened hpre
    induction ops generalizing c pre stmts with
    | nil =>
      obtain rfl := List.map_eq_nil_iff.1 hstmts
      rw [lowerStmts, List.flatMap_nil, behind_nil, List.append_nil]
      exact remakes_pure ()
    | cons o ops ih' =>
      obtain ⟨stmt, rest, rfl, hstmt, hrest⟩ := List.map_eq_cons_iff.1 hstmts
      have ho := hlive o List.mem_cons_self
      have hmem : o ∈ (p.block b).ops := hops ▸ List.mem_append_right _ List.mem_cons_self
      rw [List.flatMap_cons, ← List.append_assoc] at hpre
      have hallowed : allowedIn region rest.isEmpty stmt.op = true := by
        obtain ⟨results, op, span⟩ := stmt
        obtain ⟨-, hop, -⟩ := Source.Stmt.mk.inj hstmt
        refine allowedIn_of_plain hop (hp.laidOut o ho) (horderly.stands o hmem) fun hkind => ?_
        obtain rfl := eq_nil_of_isTerminator hp horderly hops hkind
        rw [List.map_eq_nil_iff.1 hrest]
        rfl
      have hfirst := remakes_lowerStmt hp ih hops ho (hshallow o List.mem_cons_self) hstmt hopened
        ((List.prefix_append _ _).trans hpre)
      have hnext : Opened p (c.behind (p.opHistory (depth + 1) o)) b isolated (pre ++ [o]) := by
        refine hopened.next fun v hv => List.mem_append_right _ (List.mem_cons_of_mem _ ?_)
        exact List.mem_map_of_mem hv
      have hothers := ih' _ (hops.trans (List.append_cons pre o ops))
        (fun z hz => hlive z (List.mem_cons_of_mem _ hz))
        (fun z hz => hshallow z (List.mem_cons_of_mem _ hz)) hrest hnext hpre
      rw [lowerStmts, List.flatMap_cons, List.append_cons, behind_append]
      simp only [hallowed, if_true]
      exact Remakes.bind hfirst hothers

/-! ## Functions and modules -/

theorem remakes_lowerParams (hp : p.Readable) {params : List Source.Param} {vs : List ValueId}
    (h : params.map Source.Param.plain =
      vs.map fun v => ⟨p.sourceName v, (p.valueType v).source⟩) :
    Remakes p c (lowerParams params) (p.shown vs) c := by
  induction vs generalizing params with
  | nil =>
    obtain rfl := List.map_eq_nil_iff.1 h
    exact remakes_pure _
  | cons v vs ih =>
    obtain ⟨param, params, rfl, hparam, h⟩ := List.map_eq_cons_iff.1 h
    obtain ⟨hname, htype⟩ := Source.Param.mk.inj hparam
    refine Remakes.bind (remakes_lowerType htype (hp.ranks v)) ?_
    refine Remakes.bind (ih h) ?_
    rw [text_of_plain hname]
    exact remakes_pure _

/-- What has been made once the functions have been read. -/
def funcsHistory (p : Program) (fs : List Func) : List Entity :=
  fs.flatMap fun f => p.blockHistory (p.opHistory (p.blocks.size + 1)) f.body

theorem remakes_lowerFunc (hp : p.Readable) {fs gs : List Func} {g : Func}
    (hfs : p.funcs = fs ++ g :: gs) {f : Source.Func} (hf : f.plain = p.sourceFunc g) :
    Remakes p ⟨funcsHistory p fs, [], fs⟩ (lowerFunc f) ()
      ⟨funcsHistory p (fs ++ [g]), [], fs ++ [g]⟩ := by
  have hg : g ∈ p.funcs := hfs ▸ List.mem_append_right _ List.mem_cons_self
  obtain ⟨name, params, ⟨stmts, bodySpan⟩, span⟩ := f
  obtain ⟨hname, hparams, hbody, -⟩ := Source.Func.mk.inj hf
  have hname : name.text = g.name := congrArg Source.Name.text hname
  have hlocals : (p.block g.body).args <+: p.locals g.body := List.prefix_append _ _
  have hfresh := (hp.names g.body).sublist (hlocals.sublist.map p.valueName)
  have hnames : (params.map (·.name)).map Source.Name.plain =
      (p.block g.body).args.map p.sourceName := by
    have h := congrArg (List.map Source.Param.name) hparams
    rw [List.map_map, List.map_map] at h
    rw [List.map_map]
    exact h
  have hhistory : funcsHistory p (fs ++ [g]) =
      funcsHistory p fs ++ p.blockHistory (p.opHistory (p.blocks.size + 1)) g.body := by
    rw [funcsHistory, List.flatMap_append, List.flatMap_singleton]
    rfl
  have hsplit : funcsHistory p fs ++ p.blockHistory (p.opHistory (p.blocks.size + 1)) g.body =
      (funcsHistory p fs ++ .block g.body :: (p.block g.body).args.map .value) ++
        (p.block g.body).ops.flatMap (p.opHistory (p.blocks.size + 1)) := by
    rw [List.append_assoc]
    rfl
  have hpre : funcsHistory p fs ++ p.blockHistory (p.opHistory (p.blocks.size + 1)) g.body <+:
      p.history := by
    rw [← hhistory, Program.history, hfs, List.append_cons fs g gs, List.flatMap_append]
    exact List.prefix_append _ _
  have hopen : funcsHistory p fs ++ .block g.body :: (p.block g.body).args.map .value <+:
      p.history := (hsplit ▸ List.prefix_append _ _ : _ <+: _).trans hpre
  have hsub := List.subset_append_right (funcsHistory p fs)
    (p.blockHistory (p.opHistory (p.blocks.size + 1)) g.body)
  rw [lowerFunc_eq, hhistory]
  refine Remakes.bind (remakes_lowerParams hp hparams) ?_
  refine Remakes.bind (remakes_openSite (fs ++ [g]) (fun q hq => ?_) hnames hfresh _) ?_
  · rw [hname]
    exact ⟨(hq.next_block hp.distinct hopen).symm, hq.addFunc hp.distinct g hopen⟩
  have hopened : Opened p ⟨funcsHistory p fs ++ .block g.body :: (p.block g.body).args.map .value,
      [], fs ++ [g]⟩ g.body false [] := by
    refine ⟨List.mem_append_right _ List.mem_cons_self, fun v hv => ?_, .root (hp.root g hg)⟩
    rw [Program.soFar, List.flatMap_nil, List.append_nil] at hv
    exact List.mem_append_right _ (List.mem_cons_of_mem _ (List.mem_map_of_mem hv))
  have hstmts : stmts.map Source.Stmt.plain =
      (p.block g.body).ops.map (p.sourceStmt (p.blocks.size + 1)) := stmts_of_plain hbody
  have hfilled := refills hp (p.blocks.size + 1) [] rfl (hp.bodies g hg) (hp.shallow g hg) hstmts
    (hp.orderly g hg) hopened (hsplit ▸ hpre)
  rw [Program.soFar, List.flatMap_nil, List.append_nil, Stage.behind, ← hsplit] at hfilled
  refine Remakes.bind hfilled ?_
  refine Remakes.bind (remakes_closeBody hp (hsub List.mem_cons_self) hpre (fun o ho => ?_)
    (Or.inl rfl) bodySpan) (remakes_leave _ _)
  refine ⟨hsub (Program.op_mem_blockHistory.2 ⟨o, ho, op_mem_history ?_⟩), hp.bodies g hg o ho⟩
  exact Program.shallow_of_mem (hp.shallow g hg) ho

theorem remakes_lowerFuncs (hp : p.Readable) {fs gs : List Func} (hfs : p.funcs = fs ++ gs)
    {funcs : List Source.Func} (h : funcs.map Source.Func.plain = gs.map p.sourceFunc) :
    Remakes p ⟨funcsHistory p fs, [], fs⟩ (funcs.forM lowerFunc) () ⟨p.history, [], p.funcs⟩ := by
  induction gs generalizing fs funcs with
  | nil =>
    obtain rfl := List.map_eq_nil_iff.1 h
    rw [List.append_nil] at hfs
    rw [Program.history, hfs]
    exact remakes_pure ()
  | cons g gs ih =>
    obtain ⟨f, funcs, rfl, hf, h⟩ := List.map_eq_cons_iff.1 h
    exact Remakes.bind (remakes_lowerFunc hp hfs hf) (ih (hfs.trans (List.append_cons fs g gs)) h)

end Lowering

/-- The text of a readable program is accepted, and the program is made anew. -/
theorem Program.Readable.readProgram_text {p : Program} (hp : p.Readable) (hspell : p.Spellable) :
    ∃ q, readProgram p.text = .ok q ∧ p.Mirrors p.history p.history p.funcs q := by
  have hprintable : p.Printable := ⟨hspell, hp.laidOut, hp.nested, hp.bodies, hp.shallow⟩
  obtain ⟨m, hparse, hplain⟩ := hprintable.parse_text
  rw [Program.plain_source] at hplain
  obtain ⟨hfuncs, -⟩ := Source.Module.mk.inj hplain
  have hfs : p.funcs = [] ++ p.funcs := rfl
  obtain ⟨-, hmade⟩ := Lowering.remakes_lowerFuncs hp hfs hfuncs ⟨.empty, [], []⟩
    ⟨mirrors_empty, rfl, rfl⟩
  refine ⟨(lower m).program, ?_, hmade.mirrors⟩
  have hsilent : (lower m).diagnostics = [] := hmade.silent
  rw [readProgram, hparse]
  simp only [Lowered.hasErrors, hsilent, List.any_nil, Bool.false_eq_true, if_false]

end AsyncOrder
