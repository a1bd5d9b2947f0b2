import AsyncOrder.Proofs.Program.Stripping
import AsyncOrder.Proofs.Basic
import AsyncOrder.Scope.Build
import AsyncOrder.Scope.Producers
import AsyncOrder.Rewriting.Tokens

/-!
# What scopes have to do with dependency lists

The scopes of a program as they are built, the producers of its tokens and the tokens that stand
for its vertices do not depend on dependency lists or positions.  Only where building fails does
the failure tell a position.
-/

namespace AsyncOrder

variable {keep : Bool}

theorem toOption_bind {ε α β : Type} (x : Except ε α) (f : α → Except ε β) :
    (x >>= f).toOption = x.toOption.bind fun a => (f a).toOption := by
  cases x <;> rfl

theorem toOption_foldlM_congr {ε α β : Type} {f g : β → α → Except ε β}
    (h : ∀ b a, (f b a).toOption = (g b a).toOption) (l : List α) (b : β) :
    (l.foldlM f b).toOption = (l.foldlM g b).toOption := by
  induction l generalizing b with
  | nil => rfl
  | cons a l ih =>
    rw [List.foldlM_cons, List.foldlM_cons, toOption_bind, toOption_bind, h]
    exact Option.bind_congr fun b _ => ih b

theorem toOption_eq_some_iff {ε α : Type} {x : Except ε α} {a : α} :
    x.toOption = some a ↔ x = .ok a := by
  cases x with
  | error e => simp [Except.toOption]
  | ok b => simp [Except.toOption]

namespace Program

variable {p : Program} {o : OpId} {v : ValueId}

/-! ## Building -/

@[simp]
theorem members_strip (blocks : List BlockId) :
    (p.strip keep).members blocks = p.members blocks := by
  simp only [members, walkDepth_strip, kind_strip, block_strip]
  exact walkFrom_strip _ _ _

@[simp]
theorem bufferSpaceText_strip : (p.strip keep).bufferSpaceText o = p.bufferSpaceText o := by
  simp [bufferSpaceText]

@[simp]
theorem partnerSpaceText_strip (partners : List OpId) :
    (p.strip keep).partnerSpaceText partners = p.partnerSpaceText partners := by
  unfold partnerSpaceText
  split <;> simp

@[simp]
theorem computeBody_strip : (p.strip keep).computeBody o = p.computeBody o := by
  simp [computeBody]

@[simp]
theorem events_strip (kind : ScopeKind) : (p.strip keep).events kind o = p.events kind o := by
  simp only [events, computeEvents, channelLabel, inLoop, kind_strip, computeBody_strip,
    bufferSpaceText_strip, partnerSpaceText_strip, puts_strip, gets_strip, parentOp?_strip]
  rfl

@[simp]
theorem foreign?_strip : (p.strip keep).foreign? o = p.foreign? o := by
  simp [foreign?]

theorem toOption_addMember_strip
    {inner inner' : Level → OpId → Path → Context → Except Failure (ScopeTree × Context)}
    (hinner : ∀ level op path c,
      (inner level op path c).toOption = (inner' level op path c).toOption)
    (path : Path) (d : Draft) (o : OpId) :
    ((p.strip keep).addMember inner path d o).toOption =
      (p.addMember inner' path d o).toOption := by
  rw [addMember, addMember, foreign?_strip, kind_strip, events_strip]
  cases p.foreign? o with
  | some bad => rfl
  | none =>
    cases p.kind o with
    | hierarchy level ids =>
      simp only [toOption_bind, hinner]
    | _ => rfl

theorem toOption_buildScope_strip (depth : Nat) (kind : ScopeKind) (call : Option OpId)
    (blocks : List BlockId) (path : Path) (c : Context) :
    ((p.strip keep).buildScope depth kind call blocks path c).toOption =
      (p.buildScope depth kind call blocks path c).toOption := by
  induction depth generalizing kind call blocks path c with
  | zero => rfl
  | succ depth ih =>
    simp only [buildScope, toOption_bind, members_strip]
    rw [toOption_foldlM_congr fun d o => toOption_addMember_strip (fun level op path c => ?_) path d o]
    rw [ih, body?_strip]

/-- Programs that differ in dependency lists and positions have the same scopes. -/
theorem scopeTree_strip {t : ScopeTree} {c : Context} :
    (p.strip keep).scopeTree = .ok (t, c) ↔ p.scopeTree = .ok (t, c) := by
  rw [← toOption_eq_some_iff, ← toOption_eq_some_iff, scopeTree, scopeTree, size_ops_strip,
    funcs_strip, toOption_buildScope_strip]

/-! ## Producers -/

@[simp]
theorem yieldedBy_strip : (p.strip keep).yieldedBy = p.yieldedBy := by
  funext v
  simp only [yieldedBy, carriedOwner?_strip, definingOp?_strip, kind_strip, op_strip,
    results_strip, regions_strip, terminator?_strip, operands_strip]

@[simp]
theorem directProducer?_strip (c : Context) :
    (p.strip keep).directProducer? c = p.directProducer? c := by
  funext v
  simp only [directProducer?, carriedOwner?_strip, definingOp?_strip, kind_strip,
    loopYield?_strip]

@[simp]
theorem producers_strip (c : Context) : (p.strip keep).producers c v = p.producers c v := by
  simp [producers]

/-! ## Tokens that stand for vertices -/

@[simp]
theorem waiters_strip (s : Scope) : (p.strip keep).waiters s = p.waiters s := by
  simp [waiters]

@[simp]
theorem elevatedToken?_strip (producer consumer : OpId) :
    (p.strip keep).elevatedToken? producer consumer = p.elevatedToken? producer consumer := by
  simp [elevatedToken?, elevated]

@[simp]
theorem vertexToken?_strip (x : Vertex) (consumer : OpId) :
    (p.strip keep).vertexToken? x consumer = p.vertexToken? x consumer := by
  have hparent : (p.strip keep).parentOp? = p.parentOp? := funext fun _ => parentOp?_strip
  simp only [vertexToken?, carriedArg?_strip, valueType_strip, hparent, elevatedToken?_strip]

@[simp]
theorem fillTokens_strip (s : Scope) (v : Nat) :
    (p.strip keep).fillTokens s v o = p.fillTokens s v o := by
  simp only [fillTokens, vertexToken?_strip, definingOp?_strip]
  rfl

end Program

end AsyncOrder
