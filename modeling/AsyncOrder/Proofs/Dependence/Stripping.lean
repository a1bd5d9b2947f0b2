import AsyncOrder.Proofs.Rewriting.Preservation
import AsyncOrder.Dependence.Tracing

/-!
# What tracing asks

Which tokens tracing appends does not depend on dependency lists or positions:

    (p.strip keep).sinkTokens forced o = p.sinkTokens forced o
    (p.strip keep).loopWaits o ancestors = p.loopWaits o ancestors

So it can be read off the program before anything has been appended.
-/

namespace AsyncOrder.Program

variable {p q : Program} {keep : Bool} {o z : OpId} {v : ValueId} {mode : ConflictMode}
variable {forced : Option ConflictMode}

/-! ## Accesses -/

@[simp]
theorem isBefore_strip : (p.strip keep).isBefore z o = p.isBefore z o := by
  simp [isBefore, position?]

@[simp]
theorem operandUses_strip : (p.strip keep).operandUses v = p.operandUses v := by
  simp [operandUses]

@[simp]
theorem constValue?_strip : (p.strip keep).constValue? v = p.constValue? v := by
  have hkind : (p.strip keep).kind = p.kind := funext fun _ => kind_strip
  rw [constValue?, constValue?, definingOp?_strip, hkind]

@[simp]
theorem refAt_strip (offsets : List ValueId) :
    (p.strip keep).refAt v offsets = p.refAt v offsets := by
  have hextent : (p.strip keep).extentOf = p.extentOf := funext fun v => by simp [extentOf]
  rw [refAt, refAt, valueType_strip, hextent]

@[simp]
theorem operandRef_strip (i : Nat) : (p.strip keep).operandRef o i v = p.operandRef o i v := by
  rw [operandRef, operandRef, refAt_strip, op_strip]
  rfl

@[simp]
theorem operandRole_strip (i : Nat) : (p.strip keep).operandRole o i = p.operandRole o i := by
  have hreceivers : (p.strip keep).receivers = p.receivers := funext fun v => by simp [receivers]
  have hdirect : (p.strip keep).directRoles = p.directRoles :=
    funext fun v => by simp [directRoles]
  have hclassify : (p.strip keep).classify = p.classify := funext fun v => by
    rw [classify, classify, hreceivers, hdirect, values_strip]
  simp [operandRole, hclassify]

@[simp]
theorem performed_strip : (p.strip keep).performed o = p.performed o := by
  have hwalk : (p.strip keep).walkBlock = p.walkBlock := funext fun _ => walkBlock_strip
  rw [performed, performed, kind_strip, body?_strip, hwalk]

@[simp]
theorem bufferRefs_strip : (p.strip keep).bufferRefs o = p.bufferRefs o := by
  simp [bufferRefs]

@[simp]
theorem resultRefs_strip : (p.strip keep).resultRefs o = p.resultRefs o := by
  simp [resultRefs]

@[simp]
theorem scalars_strip (vs : List ValueId) : (p.strip keep).scalars vs = p.scalars vs := by
  simp [scalars]

@[simp]
theorem accesses_strip : (p.strip keep).accesses o = p.accesses o := by
  simp [accesses]

/-! ## Tokens of conflicts -/

@[simp]
theorem waitToken?_strip : (p.strip keep).waitToken? z o = p.waitToken? z o := by
  have hfirst : ∀ candidates, (p.strip keep).firstWaitToken? o candidates =
      p.firstWaitToken? o candidates := by
    intro candidates
    induction candidates with
    | nil => rfl
    | cons c candidates ih => simp [firstWaitToken?, ih]
  rw [waitToken?, waitToken?, ancestors_strip, hfirst]

@[simp]
theorem conflictTokens_strip (refs : List PartialRef) :
    (p.strip keep).conflictTokens o mode refs = p.conflictTokens o mode refs := by
  have hconflicts : (p.strip keep).conflicts o mode = p.conflicts o mode :=
    funext fun r => by simp [conflicts]
  simp [conflictTokens, hconflicts]

@[simp]
theorem makerTokens_strip (vs : List ValueId) :
    (p.strip keep).makerTokens o vs = p.makerTokens o vs := by
  have hmade : (p.strip keep).madeBy? o = p.madeBy? o := funext fun v => by simp [madeBy?]
  simp [makerTokens, hmade]

@[simp]
theorem sinkTokens_strip : (p.strip keep).sinkTokens forced o = p.sinkTokens forced o := by
  simp [sinkTokens]

/-! ## Threading through loops -/

@[simp]
theorem carriedToken?_strip : (p.strip keep).carriedToken? o = p.carriedToken? o := by
  simp [carriedToken?]

theorem mem_terminator (h : p.loopYield? o = some z) : (p.kind z).isTerminator = true := by
  obtain ⟨b, -, hz⟩ := Option.bind_eq_some_iff.1 h
  exact (Option.filter_eq_some_iff.1 hz).2

/-- What a terminator hands on are its operands. -/
theorem tokenList_strip_of_isTerminator (h : (p.kind o).isTerminator = true) :
    (p.strip keep).tokenList o = p.tokenList o := by
  rw [tokenList, tokenList, kind_strip, op_strip]
  cases hk : p.kind o <;> simp_all [OpKind.isTerminator, OpKind.isAsync]

@[simp]
theorem yieldJoin?_strip : (p.strip keep).yieldJoin? o = p.yieldJoin? o := by
  have htokens : ((p.loopYield? o).bind fun y => ((p.strip keep).tokenList y).head?) =
      (p.loopYield? o).bind fun y => (p.tokenList y).head? :=
    Option.bind_congr fun y hy => by
      rw [tokenList_strip_of_isTerminator (mem_terminator hy)]
  have hdefining : (p.strip keep).definingOp? = p.definingOp? := funext fun _ => rfl
  simp only [yieldJoin?, loopYield?_strip, htokens, hdefining, kind_strip]

@[simp]
theorem carriedWaiter?_strip : (p.strip keep).carriedWaiter? o = p.carriedWaiter? o := by
  have hdefining : (p.strip keep).definingOp? = p.definingOp? := funext fun _ => rfl
  simp only [carriedWaiter?, loopInit?, kind_strip, op_strip, operands_strip, hdefining]

@[simp]
theorem loopWaits_strip (ancestors : List OpId) :
    (p.strip keep).loopWaits o ancestors = p.loopWaits o ancestors := by
  induction ancestors generalizing o with
  | nil => rfl
  | cons loop outer ih => simp [loopWaits, carriedWaits, ih]

/-! ## Programs with other dependency lists -/

variable (h : q.strip false = p.strip false)
include h

theorem sinkTokens_eq_of_strip : q.sinkTokens forced o = p.sinkTokens forced o := by
  rw [← @sinkTokens_strip q false, h, sinkTokens_strip]

theorem loopWaits_eq_of_strip (ancestors : List OpId) :
    q.loopWaits o ancestors = p.loopWaits o ancestors := by
  rw [← @loopWaits_strip q false, h, loopWaits_strip]

theorem ancestors_eq_of_strip : q.ancestors o = p.ancestors o := by
  rw [← @ancestors_strip false, h, ancestors_strip]

end AsyncOrder.Program
