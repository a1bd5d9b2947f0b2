import AsyncOrder.Proofs.Program.Layout
import AsyncOrder.Proofs.Source.Tokens
import AsyncOrder.Proofs.Token.Lexing

/-!
# The source tree of a program

`Program.source` is the tree that the text of a program spells.  An operation that is laid out
as its kind demands has one of the forms of the grammar (`Program.form_of_laidOut`): `Form` says
for each of them what the operands, dependencies, results and bodies are.
-/

namespace AsyncOrder

open Source (nowhere)

def ValueType.source : ValueType → Source.TypeExpr
  | token => .token nowhere
  | index => .index nowhere
  | memref rank space => .memref rank ⟨space.text, nowhere⟩ nowhere

namespace Program

variable (p : Program)

/-! ## Trees -/

def sourceName (v : ValueId) : Source.Name := ⟨p.valueName v, nowhere⟩

def sourceAccess (base : ValueId) (offsets : List ValueId) : Source.Access :=
  ⟨p.sourceName base, offsets.map p.sourceName⟩

/-- Inner and outer values. -/
def sourceBindings (pairs : List (ValueId × ValueId)) : List Source.Binding :=
  pairs.map fun (inner, outer) => ⟨p.sourceName inner, p.sourceName outer⟩

/-- The source operation of `op`, with the given trees for its bodies.  What does not have the
operands of its kind reads as the end of a body. -/
def sourceOp (body : BlockId → Source.Block) (op : OpId) : Source.Op :=
  let o := p.op op
  let names := List.map p.sourceName
  match o.kind, o.operands, o.regions with
  | .const n, _, _ => .const n
  | .alloc, _, _ => .alloc ((o.results.head?.map p.valueType).getD .index).source
  | .dealloc, [a], _ => .dealloc (p.sourceName a)
  | .copy, [a, b], _ => .copy (p.sourceName a) (p.sourceName b)
  | .transform ins, vs, _ => .transform (names (vs.take ins)) (names (vs.drop ins))
  | .muli, [a, b], _ => .muli (p.sourceName a) (p.sourceName b)
  | .addi, [a, b], _ => .addi (p.sourceName a) (p.sourceName b)
  | .apply, vs, _ => .apply (names vs)
  | .yield, vs, _ => .yield (names vs)
  | .compute, _, [b] => .compute (names o.deps) (body b)
  | .transfer dstOffsets, dst :: src :: offsets, _ => .transfer (names o.deps)
      (p.sourceAccess dst (offsets.take dstOffsets)) (p.sourceAccess src (offsets.drop dstOffsets))
  | .put channel, base :: offsets, _ =>
      .put ⟨channel, nowhere⟩ (names o.deps) (p.sourceAccess base offsets)
  | .get channel, base :: offsets, _ =>
      .get ⟨channel, nowhere⟩ (names o.deps) (p.sourceAccess base offsets)
  | .join, _, _ => .join (names o.deps)
  | .loop kind, lower :: upper :: step :: inits, [b] =>
    match (p.block b).args with
    | var :: carried => .loop kind (p.sourceName var) (p.sourceName lower) (p.sourceName upper)
        (p.sourceName step) (p.sourceBindings (carried.zip inits)) (body b)
    | [] => .finish
  | .branch, [cond], [b, c] => .branch (p.sourceName cond) (body b) (body c)
  | .hierarchy level ids, vs, [b] => .hierarchy level (names o.deps)
      (names ((p.block b).args.take ids)) (p.sourceBindings (((p.block b).args.drop ids).zip vs))
      (body b)
  | _, _, _ => .finish

/-- Goes `depth` levels deep. -/
def sourceStmt : (depth : Nat) → OpId → Source.Stmt
  | 0, _ => .mk [] .finish nowhere
  | depth + 1, op => .mk ((p.op op).results.map p.sourceName)
      (p.sourceOp (fun b => .mk ((p.block b).ops.map (sourceStmt depth)) nowhere) op) nowhere

def sourceBlock (depth : Nat) (b : BlockId) : Source.Block :=
  .mk ((p.block b).ops.map (p.sourceStmt depth)) nowhere

def sourceFunc (f : Func) : Source.Func :=
  ⟨⟨f.name, nowhere⟩, (p.block f.body).args.map fun a => ⟨p.sourceName a, (p.valueType a).source⟩,
    p.sourceBlock (p.blocks.size + 1) f.body, nowhere⟩

def source : Source.Module := ⟨p.funcs.map p.sourceFunc, nowhere⟩

/-- Operations that nest less than `depth` deep. -/
def Shallow : (depth : Nat) → List OpId → Prop
  | 0, ops => ops = []
  | depth + 1, ops => ∀ o ∈ ops, Shallow depth (p.nested o)

theorem shallow_nil (depth : Nat) : p.Shallow depth [] := by
  cases depth with
  | zero => rfl
  | succ depth => exact nofun

/-! ## Positions -/

theorem plain_sourceName (v : ValueId) : (p.sourceName v).plain = p.sourceName v := rfl

theorem plain_sourceNames (vs : List ValueId) :
    (vs.map p.sourceName).map Source.Name.plain = vs.map p.sourceName := by
  rw [List.map_map]
  rfl

theorem plain_sourceBindings (pairs : List (ValueId × ValueId)) :
    (p.sourceBindings pairs).map Source.Binding.plain = p.sourceBindings pairs := by
  rw [sourceBindings, List.map_map]
  rfl

theorem plain_sourceAccess (base : ValueId) (offsets : List ValueId) :
    (p.sourceAccess base offsets).plain = p.sourceAccess base offsets := by
  rw [Source.Access.plain, sourceAccess, plain_sourceNames, plain_sourceName]

theorem plain_sourceType (t : ValueType) : t.source.plain = t.source := by cases t <;> rfl

theorem plain_sourceOp {body : BlockId → Source.Block} (hbody : ∀ b, (body b).plain = body b)
    (op : OpId) : (p.sourceOp body op).plain = p.sourceOp body op := by
  have hchannel (c : String) : (Source.Name.mk c nowhere).plain = ⟨c, nowhere⟩ := rfl
  unfold sourceOp
  simp only
  split
  case h_15 =>
    split <;> simp only [Source.Op.plain, plain_sourceName, plain_sourceBindings, hbody]
  all_goals simp only [Source.Op.plain, plain_sourceName, plain_sourceNames, plain_sourceAccess,
    plain_sourceBindings, plain_sourceType, hchannel, hbody]

/-- The tree of a program knows no positions. -/
theorem plain_sourceStmt (depth : Nat) (op : OpId) :
    (p.sourceStmt depth op).plain = p.sourceStmt depth op := by
  induction depth generalizing op with
  | zero => rfl
  | succ depth ih =>
    rw [sourceStmt, Source.Stmt.plain, plain_sourceNames, plain_sourceOp]
    intro b
    rw [Source.Block.plain, Source.plainStmts_eq_map, List.map_map]
    exact congrArg (Source.Block.mk · nowhere) (List.map_congr_left fun o _ => ih o)

theorem plain_sourceFunc (f : Func) : (p.sourceFunc f).plain = p.sourceFunc f := by
  have hparams : ((p.block f.body).args.map fun a =>
      (⟨p.sourceName a, (p.valueType a).source⟩ : Source.Param)).map Source.Param.plain =
        (p.block f.body).args.map fun a => ⟨p.sourceName a, (p.valueType a).source⟩ := by
    rw [List.map_map]
    refine List.map_congr_left fun a _ => ?_
    rw [Function.comp_apply, Source.Param.plain, plain_sourceName, plain_sourceType]
  have hstmts : ((p.block f.body).ops.map (p.sourceStmt (p.blocks.size + 1))).map
      Source.Stmt.plain = (p.block f.body).ops.map (p.sourceStmt (p.blocks.size + 1)) := by
    rw [List.map_map]
    exact List.map_congr_left fun o _ => p.plain_sourceStmt _ o
  rw [Source.Func.plain, sourceFunc, hparams, sourceBlock, Source.Block.plain,
    Source.plainStmts_eq_map, hstmts]
  rfl

theorem plain_source : p.source.plain = p.source := by
  rw [Source.Module.plain, source, List.map_map]
  exact congrArg (Source.Module.mk · nowhere)
    (List.map_congr_left fun f _ => p.plain_sourceFunc f)

/-! ## Forms -/

/-- What an operation is made of, by its kind. -/
structure Has (o : OpId) (kind : OpKind) (operands deps : List ValueId) (types : List ValueType)
    (regions : List BlockId) : Prop where
  kind : p.kind o = kind
  operands : (p.op o).operands = operands
  deps : (p.op o).deps = deps
  types : (p.op o).results.map p.valueType = types
  regions : (p.op o).regions = regions

/-- All of the values are of this type. -/
def AllOf (type : ValueType) (vs : List ValueId) : Prop := ∀ v ∈ vs, p.valueType v = type

/-- The values of an access have the types of one. -/
def AccessAt (base : ValueId) (offsets : List ValueId) : Prop :=
  (p.valueType base).isMemref = true ∧ p.AllOf .index offsets ∧
    (offsets = [] ∨ (p.valueType base).rank? = some offsets.length)

open ValueType in
inductive Form (body : BlockId → Source.Block) (o : OpId) : Source.Op → Prop
  | const (n : Int) (h : p.Has o (.const n) [] [] [index] []) : Form body o (.const n)
  | alloc (t : ValueType) (v : ValueId) (ht : t.isMemref = true) (h : p.Has o .alloc [] [] [t] [])
      (hv : (p.op o).results = [v]) : Form body o (.alloc t.source)
  | dealloc (a : ValueId) (ha : (p.valueType a).isMemref = true) (h : p.Has o .dealloc [a] [] [] []) :
      Form body o (.dealloc (p.sourceName a))
  | copy (a b : ValueId) (ha : (p.valueType a).isMemref = true)
      (hb : (p.valueType b).isMemref = true) (h : p.Has o .copy [a, b] [] [] []) :
      Form body o (.copy (p.sourceName a) (p.sourceName b))
  | transform (as bs : List ValueId) (h : p.Has o (.transform as.length) (as ++ bs) [] [] []) :
      Form body o (.transform (as.map p.sourceName) (bs.map p.sourceName))
  | muli (a b : ValueId) (hab : p.AllOf index [a, b]) (h : p.Has o .muli [a, b] [] [index] []) :
      Form body o (.muli (p.sourceName a) (p.sourceName b))
  | addi (a b : ValueId) (hab : p.AllOf index [a, b]) (h : p.Has o .addi [a, b] [] [index] []) :
      Form body o (.addi (p.sourceName a) (p.sourceName b))
  | apply (as : List ValueId) (has : p.AllOf index as) (h : p.Has o .apply as [] [index] []) :
      Form body o (.apply (as.map p.sourceName))
  | yield (as : List ValueId) (h : p.Has o .yield as [] [] []) :
      Form body o (.yield (as.map p.sourceName))
  | compute (ds : List ValueId) (b : BlockId) (hds : p.AllOf token ds) (hargs : (p.block b).args = [])
      (h : p.Has o .compute [] ds (token :: (p.signature b).yields) [b]) :
      Form body o (.compute (ds.map p.sourceName) (body b))
  | transfer (ds : List ValueId) (dst src : ValueId) (atDst atSrc : List ValueId)
      (hds : p.AllOf token ds) (hdst : p.AccessAt dst atDst) (hsrc : p.AccessAt src atSrc)
      (h : p.Has o (.transfer atDst.length) (dst :: src :: atDst ++ atSrc) ds [token] []) :
      Form body o
        (.transfer (ds.map p.sourceName) (p.sourceAccess dst atDst) (p.sourceAccess src atSrc))
  | put (channel : String) (ds : List ValueId) (base : ValueId) (offsets : List ValueId)
      (hds : p.AllOf token ds) (ha : p.AccessAt base offsets)
      (h : p.Has o (.put channel) (base :: offsets) ds [token] []) :
      Form body o (.put ⟨channel, nowhere⟩ (ds.map p.sourceName) (p.sourceAccess base offsets))
  | get (channel : String) (ds : List ValueId) (base : ValueId) (offsets : List ValueId)
      (hds : p.AllOf token ds) (ha : p.AccessAt base offsets)
      (h : p.Has o (.get channel) (base :: offsets) ds [token] []) :
      Form body o (.get ⟨channel, nowhere⟩ (ds.map p.sourceName) (p.sourceAccess base offsets))
  | join (ds : List ValueId) (hds : p.AllOf token ds) (h : p.Has o .join [] ds [token] []) :
      Form body o (.join (ds.map p.sourceName))
  | loop (kind : LoopKind) (lower upper step : ValueId) (inits : List ValueId) (b : BlockId)
      (var : ValueId) (carried : List ValueId) (hbounds : p.AllOf index [lower, upper, step])
      (hargs : (p.block b).args = var :: carried) (hvar : p.valueType var = index)
      (hcarried : carried.map p.valueType = inits.map p.valueType)
      (h : p.Has o (.loop kind) (lower :: upper :: step :: inits) [] (inits.map p.valueType) [b]) :
      Form body o (.loop kind (p.sourceName var) (p.sourceName lower) (p.sourceName upper)
        (p.sourceName step) (p.sourceBindings (carried.zip inits)) (body b))
  | branch (cond : ValueId) (b c : BlockId) (hcond : p.valueType cond = index)
      (hb : (p.block b).args = []) (hc : (p.block c).args = [])
      (hyields : (p.signature c).yields = (p.signature b).yields)
      (h : p.Has o .branch [cond] [] (p.signature b).yields [b, c]) :
      Form body o (.branch (p.sourceName cond) (body b) (body c))
  | hierarchy (level : Level) (ds as : List ValueId) (b : BlockId) (ids params : List ValueId)
      (hds : p.AllOf token ds) (has : ∀ a ∈ as, p.valueType a ≠ token)
      (hargs : (p.block b).args = ids ++ params) (hids : p.AllOf index ids)
      (hparams : params.map p.valueType = as.map p.valueType)
      (h : p.Has o (.hierarchy level ids.length) as ds [token] [b]) :
      Form body o (.hierarchy level (ds.map p.sourceName) (ids.map p.sourceName)
        (p.sourceBindings (params.zip as)) (body b))
  | finish (h : p.Has o .finish [] [] [] []) : Form body o .finish

variable {p}

theorem Has.op_kind {o : OpId} {kind : OpKind} {as ds : List ValueId} {types : List ValueType}
    {bs : List BlockId} (h : p.Has o kind as ds types bs) : (p.op o).kind = kind := h.kind

theorem allOf_of_map {vs : List ValueId} {type : ValueType}
    (h : ∀ t ∈ vs.map p.valueType, t = type) : p.AllOf type vs :=
  fun _ hv => h _ (List.mem_map_of_mem hv)

theorem allOf_of_map_eq {vs : List ValueId} {type : ValueType} {n : Nat}
    (h : vs.map p.valueType = List.replicate n type) : p.AllOf type vs :=
  allOf_of_map fun _ ht => List.eq_of_mem_replicate (h ▸ ht)

theorem accessAt_of_isAccess {base : ValueId} {offsets : List ValueId}
    (h : IsAccess (p.valueType base) (offsets.map p.valueType)) : p.AccessAt base offsets := by
  obtain ⟨hbase, hindex, hrank⟩ := h
  refine ⟨hbase, allOf_of_map hindex, ?_⟩
  rwa [List.map_eq_nil_iff, List.length_map] at hrank

theorem exists_access {vs : List ValueId} {n : Nat} {dst src : ValueType}
    {atDst atSrc : List ValueType} (h : vs.map p.valueType = dst :: src :: atDst ++ atSrc)
    (hn : atDst.length = n) (hdst : IsAccess dst atDst) (hsrc : IsAccess src atSrc) :
    ∃ d s od os, vs = d :: s :: od ++ os ∧ od.length = n ∧ p.AccessAt d od ∧ p.AccessAt s os := by
  obtain ⟨d, vs, rfl, rfl, h₁⟩ := List.map_eq_cons_iff.1 h
  obtain ⟨s, vs, rfl, rfl, h₂⟩ := List.map_eq_cons_iff.1 h₁
  obtain ⟨od, os, rfl, rfl, rfl⟩ := List.map_eq_append_iff.1 h₂
  exact ⟨d, s, od, os, rfl, by rw [← hn, List.length_map], accessAt_of_isAccess hdst,
    accessAt_of_isAccess hsrc⟩

theorem exists_base {vs : List ValueId} {base : ValueType} {offsets : List ValueType}
    (h : vs.map p.valueType = base :: offsets) (ha : IsAccess base offsets) :
    ∃ b os, vs = b :: os ∧ p.AccessAt b os := by
  obtain ⟨b, os, rfl, rfl, rfl⟩ := List.map_eq_cons_iff.1 h
  exact ⟨b, os, rfl, accessAt_of_isAccess ha⟩

theorem args_eq_nil {b : BlockId} (h : (p.signature b).args = []) : (p.block b).args = [] :=
  List.map_eq_nil_iff.1 h

theorem map_eq_pair {α β : Type} {f : α → β} {l : List α} {b c : β} (h : l.map f = [b, c]) :
    ∃ a d, l = [a, d] ∧ f a = b ∧ f d = c := by
  obtain ⟨a, l, rfl, rfl, h'⟩ := List.map_eq_cons_iff.1 h
  obtain ⟨d, rfl, rfl⟩ := List.map_eq_singleton_iff.1 h'
  exact ⟨a, d, rfl, rfl, rfl⟩

/-- An operation with the layout of its kind has the form of its kind. -/
theorem form_of_laidOut {o : OpId} (h : p.LaidOut o) (body : BlockId → Source.Block) :
    p.Form body o (p.sourceOp body o) := by
  obtain ⟨hsync, htokens, hshape⟩ := h
  have htokens := allOf_of_map htokens
  generalize hk : p.kind o = kind at hsync hshape
  generalize hops : (p.op o).operands = ops at hshape
  generalize hres : (p.op o).results.map p.valueType = types at hshape
  generalize hregs : (p.op o).regions = regs at hshape
  have hkind : (p.op o).kind = kind := hk
  have hhas : p.Has o kind ops (p.op o).deps types regs := ⟨hk, hops, rfl, hres, hregs⟩
  have hfree (h : kind.isAsync = false) : p.Has o kind ops [] types regs :=
    ⟨hk, hops, List.map_eq_nil_iff.1 (hsync h), hres, hregs⟩
  cases kind with
  | const n =>
    obtain ⟨hops', rfl, hregs'⟩ := hshape
    obtain rfl := List.map_eq_nil_iff.1 hops'
    obtain rfl := List.map_eq_nil_iff.1 hregs'
    simp only [sourceOp, hkind]
    exact .const n (hfree rfl)
  | alloc =>
    obtain ⟨hops', ⟨t, ht, rfl⟩, hregs'⟩ := hshape
    obtain rfl := List.map_eq_nil_iff.1 hops'
    obtain rfl := List.map_eq_nil_iff.1 hregs'
    obtain ⟨v, hv, rfl⟩ := List.map_eq_singleton_iff.1 hres
    simp only [sourceOp, hkind, hv, List.head?_cons, Option.map_some, Option.getD_some]
    exact .alloc _ v ht (hfree rfl) hv
  | dealloc =>
    obtain ⟨⟨t, ht, hops'⟩, rfl, hregs'⟩ := hshape
    obtain ⟨a, rfl, rfl⟩ := List.map_eq_singleton_iff.1 hops'
    obtain rfl := List.map_eq_nil_iff.1 hregs'
    simp only [sourceOp, hkind, hops]
    exact .dealloc a ht (hfree rfl)
  | copy =>
    obtain ⟨⟨s, t, hs, ht, hops'⟩, rfl, hregs'⟩ := hshape
    obtain ⟨a, b, rfl, rfl, rfl⟩ := map_eq_pair hops'
    obtain rfl := List.map_eq_nil_iff.1 hregs'
    simp only [sourceOp, hkind, hops]
    exact .copy a b hs ht (hfree rfl)
  | transform ins =>
    obtain ⟨hle, rfl, hregs'⟩ := hshape
    obtain rfl := List.map_eq_nil_iff.1 hregs'
    rw [List.length_map] at hle
    simp only [sourceOp, hkind, hops]
    refine .transform _ _ ?_
    rw [List.length_take, Nat.min_eq_left hle, List.take_append_drop]
    exact hfree rfl
  | muli =>
    obtain ⟨hops', rfl, hregs'⟩ := hshape
    obtain ⟨a, b, rfl, ha, hb⟩ := map_eq_pair hops'
    obtain rfl := List.map_eq_nil_iff.1 hregs'
    simp only [sourceOp, hkind, hops]
    exact .muli a b (allOf_of_map_eq (n := 2) hops') (hfree rfl)
  | addi =>
    obtain ⟨hops', rfl, hregs'⟩ := hshape
    obtain ⟨a, b, rfl, ha, hb⟩ := map_eq_pair hops'
    obtain rfl := List.map_eq_nil_iff.1 hregs'
    simp only [sourceOp, hkind, hops]
    exact .addi a b (allOf_of_map_eq (n := 2) hops') (hfree rfl)
  | apply =>
    obtain ⟨hindex, rfl, hregs'⟩ := hshape
    obtain rfl := List.map_eq_nil_iff.1 hregs'
    simp only [sourceOp, hkind, hops]
    exact .apply ops (allOf_of_map hindex) (hfree rfl)
  | yield =>
    obtain ⟨rfl, hregs'⟩ := hshape
    obtain rfl := List.map_eq_nil_iff.1 hregs'
    simp only [sourceOp, hkind, hops]
    exact .yield ops (hfree rfl)
  | compute =>
    obtain ⟨hops', sig, hregs', hargs, rfl⟩ := hshape
    obtain rfl := List.map_eq_nil_iff.1 hops'
    obtain ⟨b, rfl, rfl⟩ := List.map_eq_singleton_iff.1 hregs'
    simp only [sourceOp, hkind, hregs]
    exact .compute _ b htokens (args_eq_nil hargs) hhas
  | transfer n =>
    obtain ⟨⟨dst, src, atDst, atSrc, hops', hn, hdst, hsrc⟩, rfl, hregs'⟩ := hshape
    obtain ⟨d, s, od, os, rfl, rfl, hd, hs⟩ := exists_access hops' hn hdst hsrc
    obtain rfl := List.map_eq_nil_iff.1 hregs'
    simp only [sourceOp, hkind, hops, List.cons_append, List.take_left, List.drop_left]
    exact .transfer _ d s od os htokens hd hs hhas
  | put channel =>
    obtain ⟨⟨base, offsets, hops', ha⟩, rfl, hregs'⟩ := hshape
    obtain ⟨b, os, rfl, ha⟩ := exists_base hops' ha
    obtain rfl := List.map_eq_nil_iff.1 hregs'
    simp only [sourceOp, hkind, hops]
    exact .put channel _ b os htokens ha hhas
  | get channel =>
    obtain ⟨⟨base, offsets, hops', ha⟩, rfl, hregs'⟩ := hshape
    obtain ⟨b, os, rfl, ha⟩ := exists_base hops' ha
    obtain rfl := List.map_eq_nil_iff.1 hregs'
    simp only [sourceOp, hkind, hops]
    exact .get channel _ b os htokens ha hhas
  | join =>
    obtain ⟨hops', rfl, hregs'⟩ := hshape
    obtain rfl := List.map_eq_nil_iff.1 hops'
    obtain rfl := List.map_eq_nil_iff.1 hregs'
    simp only [sourceOp, hkind]
    exact .join _ htokens hhas
  | loop kind =>
    obtain ⟨sig, hregs', hops', hargs⟩ := hshape
    obtain ⟨b, rfl, rfl⟩ := List.map_eq_singleton_iff.1 hregs'
    obtain ⟨lower, vs, rfl, hlower, hops₁⟩ := List.map_eq_cons_iff.1 hops'
    obtain ⟨upper, vs, rfl, hupper, hops₂⟩ := List.map_eq_cons_iff.1 hops₁
    obtain ⟨step, inits, rfl, hstep, hinits⟩ := List.map_eq_cons_iff.1 hops₂
    obtain ⟨var, carried, hblock, hvar, hcarried⟩ := List.map_eq_cons_iff.1 hargs
    obtain rfl : types = inits.map p.valueType := hinits.symm
    simp only [sourceOp, hkind, hops, hregs, hblock]
    refine .loop kind lower upper step inits b var carried ?_ hblock hvar hcarried (hfree rfl)
    exact List.forall_mem_cons.2 ⟨hlower, List.forall_mem_cons.2 ⟨hupper,
      List.forall_mem_singleton.2 hstep⟩⟩
  | branch =>
    obtain ⟨hops', sig, sig', hregs', hargs, hargs', rfl, hyields⟩ := hshape
    obtain ⟨cond, rfl, hcond⟩ := List.map_eq_singleton_iff.1 hops'
    obtain ⟨b, c, rfl, rfl, rfl⟩ := map_eq_pair hregs'
    simp only [sourceOp, hkind, hops, hregs]
    exact .branch cond b c hcond (args_eq_nil hargs) (args_eq_nil hargs') hyields (hfree rfl)
  | hierarchy level ids =>
    obtain ⟨rfl, hnot, sig, hregs', hargs⟩ := hshape
    obtain ⟨b, rfl, rfl⟩ := List.map_eq_singleton_iff.1 hregs'
    obtain ⟨is, ps, hblock, his, hps⟩ := List.map_eq_append_iff.1 hargs
    have hlen : is.length = ids := by
      rw [← List.length_map (f := p.valueType), his, List.length_replicate]
    subst hlen
    simp only [sourceOp, hkind, hops, hregs, hblock, List.take_left, List.drop_left]
    refine .hierarchy level _ ops b is ps htokens (fun a ha heq => hnot ?_) hblock
      (allOf_of_map_eq his) hps hhas
    exact heq ▸ List.mem_map_of_mem ha
  | finish =>
    obtain ⟨hops', rfl, hregs'⟩ := hshape
    obtain rfl := List.map_eq_nil_iff.1 hops'
    obtain rfl := List.map_eq_nil_iff.1 hregs'
    simp only [sourceOp, hkind]
    exact .finish (hfree rfl)

end Program

end AsyncOrder
