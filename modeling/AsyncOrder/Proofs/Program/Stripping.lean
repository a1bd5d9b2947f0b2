import AsyncOrder.Program.Printer

/-!
# What dependency lists and positions have to do with

`strip keep` takes the positions out of a program and, unless it is to `keep` them, the
dependency lists.  Nothing else reads positions, and most questions about a program do not read
dependency lists:

    (p.strip keep).walk = p.walk,    (p.strip true).uses v = p.uses v

Two programs are equal but for positions if `strip true` makes them equal, and equal but for
dependency lists and positions if `strip false` does.
-/

namespace AsyncOrder

variable {keep : Bool}

def Operation.strip (keep : Bool) (o : Operation) : Operation :=
  { o with deps := if keep then o.deps else [], span := none }

theorem Operation.parts_of_strip {a b : Operation} (h : a.strip true = b.strip true) :
    a.kind = b.kind ∧ a.operands = b.operands ∧ a.deps = b.deps ∧ a.results = b.results ∧
      a.regions = b.regions := by
  obtain ⟨hkind, hoperands, hdeps, hresults, hregions, -⟩ := Operation.mk.inj h
  exact ⟨hkind, hoperands, hdeps, hresults, hregions⟩

namespace Program

variable {p : Program} {o : OpId} {v : ValueId} {b : BlockId}

def strip (keep : Bool) (p : Program) : Program := { p with ops := p.ops.map (·.strip keep) }

/-- What does not depend on what is taken out is the same for programs that are equal without. -/
theorem eq_of_strip {β : Type} {f : Program → β} {q : Program} (hf : ∀ p, f (p.strip keep) = f p)
    (h : q.strip keep = p.strip keep) : f q = f p := by
  rw [← hf q, h, hf]

/-! ## Entities -/

@[simp]
theorem op_strip : (p.strip keep).op o = (p.op o).strip keep := by
  rw [op, op, strip, Array.getElem?_map]
  cases p.ops[o.index]? with
  | some a => rfl
  | none => cases keep <;> rfl

@[simp]
theorem value_strip : (p.strip keep).value v = p.value v := rfl

@[simp]
theorem block_strip : (p.strip keep).block b = p.block b := rfl

@[simp]
theorem funcs_strip : (p.strip keep).funcs = p.funcs := rfl

@[simp]
theorem values_strip : (p.strip keep).values = p.values := rfl

@[simp]
theorem size_ops_strip : (p.strip keep).ops.size = p.ops.size := Array.size_map

@[simp]
theorem kind_strip : (p.strip keep).kind o = p.kind o := by
  rw [kind, op_strip]
  rfl

@[simp]
theorem deps_strip : (p.strip true).deps o = p.deps o := by
  rw [deps, op_strip]
  rfl

@[simp]
theorem isLive_strip : (p.strip keep).isLive o = p.isLive o := by
  rw [isLive, op_strip]
  rfl

@[simp]
theorem operands_strip (a : Operation) : (a.strip keep).operands = a.operands := rfl

@[simp]
theorem results_strip (a : Operation) : (a.strip keep).results = a.results := rfl

@[simp]
theorem regions_strip (a : Operation) : (a.strip keep).regions = a.regions := rfl

@[simp]
theorem parent_strip (a : Operation) : (a.strip keep).parent = a.parent := rfl

@[simp]
theorem operationKind_strip (a : Operation) : (a.strip keep).kind = a.kind := rfl

@[simp]
theorem operationDeps_strip (a : Operation) : (a.strip true).deps = a.deps := rfl

@[simp]
theorem valueType_strip : (p.strip keep).valueType v = p.valueType v := rfl

@[simp]
theorem valueName_strip : (p.strip keep).valueName v = p.valueName v := rfl

/-! ## Structure -/

@[simp]
theorem definingOp?_strip : (p.strip keep).definingOp? v = p.definingOp? v := rfl

@[simp]
theorem argOwner?_strip : (p.strip keep).argOwner? v = p.argOwner? v := rfl

@[simp]
theorem parentOp?_strip : (p.strip keep).parentOp? o = p.parentOp? o := by
  simp [parentOp?]

@[simp]
theorem ancestors_strip : (p.strip keep).ancestors o = p.ancestors o := by
  have hup : ∀ limit o, (p.strip keep).ancestorsUpTo limit o = p.ancestorsUpTo limit o := by
    intro limit
    induction limit with
    | zero => intro o; rfl
    | succ limit ih => intro o; simp [ancestorsUpTo, ih]
  simp [ancestors, hup]

@[simp]
theorem terminator?_strip : (p.strip keep).terminator? b = p.terminator? b := by
  simp [terminator?]

@[simp]
theorem body?_strip : (p.strip keep).body? o = p.body? o := by
  simp [body?]

@[simp]
theorem nested_strip : (p.strip keep).nested o = p.nested o := by
  simp [nested]

@[simp]
theorem walkFrom_strip (enters : OpId → Bool) (depth : Nat) (ops : List OpId) :
    (p.strip keep).walkFrom (p.strip keep).isLive enters depth ops =
      p.walkFrom p.isLive enters depth ops := by
  induction depth generalizing ops with
  | zero => rfl
  | succ depth ih => simp [walkFrom, ih]

@[simp]
theorem walkDepth_strip : (p.strip keep).walkDepth = p.walkDepth := by
  simp [walkDepth]

@[simp]
theorem walkBlock_strip : (p.strip keep).walkBlock b = p.walkBlock b := by
  simp [walkBlock]

@[simp]
theorem walk_strip : (p.strip keep).walk = p.walk := by
  simp [walk]

/-! ## Uses -/

@[simp]
theorem mentions_strip (a : Operation) : (a.strip true).mentions = a.mentions := rfl

@[simp]
theorem allUses_strip : (p.strip true).allUses = p.allUses := by
  simp [allUses]

@[simp]
theorem isUsed_strip : (p.strip true).isUsed v = p.isUsed v := by
  simp [isUsed, uses]

@[simp]
theorem useMap_strip : (p.strip true).useMap = p.useMap := by
  simp [useMap]

/-! ## Tokens, loops and calls -/

@[simp]
theorem completionToken?_strip : (p.strip keep).completionToken? o = p.completionToken? o := by
  simp only [completionToken?, op_strip, results_strip, kind_strip, valueType_strip]
  rfl

@[simp]
theorem carriedArg?_strip (slot : Nat) :
    (p.strip keep).carriedArg? o slot = p.carriedArg? o slot := by
  simp [carriedArg?]

@[simp]
theorem carriedOwner?_strip : (p.strip keep).carriedOwner? v = p.carriedOwner? v := by
  simp [carriedOwner?]

@[simp]
theorem loopYield?_strip : (p.strip keep).loopYield? o = p.loopYield? o := by
  rw [loopYield?, loopYield?, body?_strip]
  exact Option.bind_congr fun b _ => terminator?_strip

@[simp]
theorem hierarchyPairs_strip : (p.strip keep).hierarchyPairs o = p.hierarchyPairs o := by
  simp [hierarchyPairs]

@[simp]
theorem hierarchyIds_strip : (p.strip keep).hierarchyIds o = p.hierarchyIds o := by
  simp [hierarchyIds]

@[simp]
theorem puts_strip (channel : String) : (p.strip keep).puts channel = p.puts channel := by
  simp [puts]

@[simp]
theorem gets_strip (channel : String) : (p.strip keep).gets channel = p.gets channel := by
  simp [gets]

/-! ## Text -/

section

variable {q : Program} (hop : ∀ o, (q.op o).strip true = (p.op o).strip true)
variable (hblock : q.block = p.block) (hname : q.valueName = p.valueName)
variable (htype : q.valueType = p.valueType)

theorem ref_congr (hname : q.valueName = p.valueName) : q.ref = p.ref :=
  funext fun v => by rw [ref, ref, hname]

theorem refs_congr (hname : q.valueName = p.valueName) : q.refs = p.refs :=
  funext fun vs => by rw [refs, refs, ref_congr hname]

include hop hblock hname htype

theorem headText_congr (o : OpId) : q.headText o = p.headText o := by
  have hdeps : q.depsText = p.depsText :=
    funext fun ds => by rw [depsText, depsText, refs_congr hname]
  have haccess : q.accessText = p.accessText := funext fun base => funext fun offsets => by
    rw [accessText, accessText, ref_congr hname, refs_congr hname]
  have haccessOf : q.accessOf = p.accessOf :=
    funext fun vs => by cases vs <;> simp only [accessOf, haccess]
  have htransfer : q.transferText = p.transferText :=
    funext fun n => funext fun vs => by unfold transferText; rw [haccess]
  have hbindings : q.bindingsText = p.bindingsText :=
    funext fun pairs => by rw [bindingsText, bindingsText, ref_congr hname]
  have hloop : q.loopHead = p.loopHead :=
    funext fun vs => funext fun args => by unfold loopHead; rw [ref_congr hname, hbindings]
  obtain ⟨hkind, hoperands, hds, hresults, hregions⟩ := Operation.parts_of_strip (hop o)
  simp only [headText, hierarchyIds, hierarchyPairs, body?, kind, hkind, hoperands, hds, hresults,
    hregions, hblock, htype, refs_congr hname, hdeps, haccessOf, htransfer, hbindings, hloop]

theorem opTextUpTo_congr (depth level : Nat) (o : OpId) :
    q.opTextUpTo depth level o = p.opTextUpTo depth level o := by
  induction depth generalizing level o with
  | zero => rfl
  | succ depth ih =>
    have hbelow : q.opTextUpTo depth (level + 1) = p.opTextUpTo depth (level + 1) :=
      funext fun o => ih (level + 1) o
    obtain ⟨hkind, -, -, hresults, hregions⟩ := Operation.parts_of_strip (hop o)
    simp only [opTextUpTo, headText_congr hop hblock hname htype, hkind, hresults, hregions, hblock,
      refs_congr hname, hbelow]

/-- Text is made of operations, blocks, functions, types and the names that are shown. -/
theorem text_congr (hfuncs : q.funcs = p.funcs) (hsize : q.blocks.size = p.blocks.size) :
    q.text = p.text := by
  have hop : ∀ level, q.opTextUpTo (p.blocks.size + 1) level =
      p.opTextUpTo (p.blocks.size + 1) level :=
    fun level => funext (opTextUpTo_congr hop hblock hname htype _ level)
  have hfunc : q.funcText = p.funcText := by
    funext f
    rw [funcText, funcText, blockText, blockText, hsize, hop, hblock, htype, ref_congr hname]
  rw [text, text, hfunc, hfuncs]

end

/-- The text of a program does not tell positions. -/
theorem text_strip : (p.strip true).text = p.text :=
  text_congr (fun o => by rw [op_strip]; rfl) rfl rfl rfl rfl rfl

end Program

end AsyncOrder
