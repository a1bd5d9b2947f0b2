import AsyncOrder.Dependence.Control
import AsyncOrder.Proofs.Rewriting.Scoped
import AsyncOrder.Proofs.Rewriting.Scopes

/-!
# Who waits on whom

An operation awaits another one if a token that it waits on is produced by the completion of the
other.  In a scoped program what is awaited is a member of the same scope and comes before, and the
resolved scope leads from its vertex to that of who waits:

    q.Awaits o z → z comes before o                                     (Scoped.awaits_before)
    q.Awaits o z → a path from the vertex of z to that of o             (Scoped.path_of_awaits)
-/

namespace AsyncOrder

open Program Relation

namespace Program

variable {p q : Program} {blocks : List BlockId} {call : Option OpId} {o x y z : OpId}
variable {b : BlockId} {v w token : ValueId}

/-- The completion of `z` produces the token. -/
def MadeBy (p : Program) (token : ValueId) (z : OpId) : Prop :=
  ∃ w, ReflTransGen (Leads p.yieldedBy) token w ∧ p.producerOp? w = some z

/-- `o` waits on a `good` token that the completion of `z` produces. -/
def AwaitsBy (p : Program) (good : ValueId → Prop) (o z : OpId) : Prop :=
  ∃ token ∈ p.tokenList o, good token ∧ p.MadeBy token z

/-- `o` waits on a token that the completion of `z` produces. -/
def Awaits (p : Program) : OpId → OpId → Prop := p.AwaitsBy fun _ => True

/-- The live operation `b` waits on a `good` token that the completion of `a` produces. -/
def Steps (q : Program) (good : ValueId → Prop) (a b : OpId) : Prop :=
  q.isLive b = true ∧ q.AwaitsBy good b a

theorem AwaitsBy.awaits {good : ValueId → Prop} (h : p.AwaitsBy good o z) : p.Awaits o z :=
  let ⟨token, htoken, _, hz⟩ := h
  ⟨token, htoken, trivial, hz⟩

theorem Steps.weaken {good : ValueId → Prop} {a b : OpId} (h : p.Steps good a b) :
    p.Steps (fun _ => True) a b :=
  ⟨h.1, h.2.awaits⟩

namespace Prunes

variable (h : p.Prunes q)
include h

theorem happens : q.happens = p.happens := by
  funext o
  rw [Program.happens, Program.happens, h.kind, inLoop, inLoop, h.parentOp?]
  simp only [h.kind]

theorem isControlToken (v : ValueId) : q.isControlToken v = p.isControlToken v := by
  rw [Program.isControlToken, Program.isControlToken, h.carriedOwner?, h.definingOp?]
  cases p.definingOp? v with
  | none => rfl
  | some z => rw [Option.map_some, Option.map_some, h.kind]

variable (hp : p.WellFormed)
include hp

/-- Where what has the token as a result lives, the same operation produces it. -/
theorem producerOp?_eq (hlive : ∀ z, q.definingOp? v = some z → q.isLive z = true) :
    q.producerOp? v = p.producerOp? v := by
  rw [Program.producerOp?, Program.producerOp?, h.carriedOwner?]
  cases p.carriedOwner? v with
  | some loop => rfl
  | none =>
    simp only [h.definingOp?] at hlive ⊢
    refine Option.bind_congr fun z hz => ?_
    have hzlive := hlive z hz
    rw [h.kind]
    split
    · next hkind =>
      obtain ⟨b, hb, hbody, -⟩ := hp.regions_eq_singleton (h.lt hzlive) (r := .loop)
        (by rw [hkind]; rfl)
      obtain ⟨y, hy, hy', -⟩ := h.terminator?_eq hp hzlive (hb ▸ List.mem_singleton_self b)
      rw [loopYield?, loopYield?, body?, body?, h.regions, hb]
      exact hy.trans hy'.symm
    · rfl

end Prunes

/-! ## What is awaited comes before -/

namespace Scoped

variable (h : p.Scoped q) (hp : p.WellFormed) (hs : p.IsScope call blocks)
include h

theorem used_inView (ho : q.isLive o = true) (hv : token ∈ q.tokenList o) : q.InView o token :=
  h.wellScoped o ho token (mem_used_of_mem_tokenList hv)

include hp

/-- What a conditional yields for a value in view is an operand of a yield that lives. -/
theorem yielded_operand (hv : q.InView o v) (hw : w ∈ q.yieldedBy v) :
    ∃ z y, p.definingOp? v = some z ∧ p.kind z = .branch ∧ y ∈ p.nested z ∧
      q.isLive y = true ∧ w ∈ (q.op y).operands := by
  obtain ⟨-, z, i, b, y, hz, hkind, -, hb, hy, hw⟩ := mem_yieldedBy_iff.1 hw
  have hlive := h.prunes.isLive_of_inView hp.linked hv hz
  rw [h.prunes.regions] at hb
  obtain ⟨y', hy', -, hnested, hylive⟩ := h.prunes.terminator?_eq hp hlive hb
  obtain rfl := Option.some.inj (hy.symm.trans hy')
  exact ⟨z, y, h.prunes.definingOp? v ▸ hz, h.prunes.kind z ▸ hkind, hnested, hylive,
    List.mem_of_getElem? hw⟩

/-- So it is in view there. -/
theorem yielded_inView (hv : q.InView o v) (hw : w ∈ q.yieldedBy v) :
    ∃ y, q.isLive y = true ∧ q.InView y w := by
  obtain ⟨-, y, -, -, -, hylive, hmem⟩ := h.yielded_operand hp hv hw
  exact ⟨y, hylive, h.wellScoped y hylive w (List.mem_append_left _ hmem)⟩

theorem isLive_of_producerOp (hlive : q.isLive o = true) (hv : q.InView o v)
    (hz : q.producerOp? v = some z) : q.isLive z = true := by
  have hprunes := h.prunes
  rw [Program.producerOp?] at hz
  split at hz
  · -- the loop is around what sees its argument
    next loop hloop =>
    obtain rfl := Option.some.inj hz
    rw [hprunes.carriedOwner?] at hloop
    obtain ⟨b, i, harg, howner, -⟩ := carriedOwner?_eq_some hloop
    obtain ⟨a, ha, hv | ⟨y, -, -, hv⟩⟩ := hv
    · rw [hprunes.outer] at ha
      have hblock := hprunes.args _ v hv
      obtain ⟨j, harg', -⟩ := hp.linked.argOwner?_of_mem hblock
      obtain ⟨rfl, -⟩ := Prod.mk.inj (Option.some.inj (harg'.symm.trans harg))
      exact hprunes.around a loop (hprunes.isLive_of_outer hlive ha)
        ((hprunes.owner _).trans howner)
    · rw [(hp.linked.definingOp?_of_result (hprunes.results y ▸ hv)).2] at hloop
      cases hloop
  · obtain ⟨a, ha, hz⟩ := Option.bind_eq_some_iff.1 hz
    have halive := hprunes.isLive_of_inView hp.linked hv ha
    split at hz
    · next hkind =>
      rw [hprunes.kind] at hkind
      obtain ⟨b, hb, hbody, -⟩ := hp.regions_eq_singleton (hprunes.lt halive) (r := .loop)
        (by rw [hkind]; rfl)
      obtain ⟨y, hy, -, -, hylive⟩ := hprunes.terminator?_eq hp halive
        (hb ▸ List.mem_singleton_self b)
      rw [loopYield?, body?, hprunes.regions, hb] at hz
      obtain rfl := Option.some.inj (hy.symm.trans hz)
      exact hylive
    · split at hz
      · obtain rfl := Option.some.inj hz
        exact halive
      · cases hz

/-- What leads to a value in view is in view at something that lives. -/
theorem leads_inView (hlive : q.isLive o = true) (hv : q.InView o v)
    (hvw : ReflTransGen (Leads q.yieldedBy) v w) : ∃ y, q.isLive y = true ∧ q.InView y w := by
  induction hvw using ReflTransGen.head_induction_on generalizing o with
  | refl => exact ⟨o, hlive, hv⟩
  | head hstep _ ih =>
    obtain ⟨y, hylive, hyw⟩ := h.yielded_inView hp hv hstep
    exact ih hylive hyw

theorem isLive_of_madeBy (hlive : q.isLive o = true) (hv : q.InView o v) (hz : q.MadeBy v z) :
    q.isLive z = true := by
  obtain ⟨w, hvw, hz⟩ := hz
  obtain ⟨y, hylive, hyw⟩ := h.leads_inView hp hlive hv hvw
  exact h.isLive_of_producerOp hp hylive hyw hz

theorem isLive_of_awaits (hlive : q.isLive o = true) (hz : q.Awaits o z) : q.isLive z = true := by
  obtain ⟨token, htoken, -, hz⟩ := hz
  exact h.isLive_of_madeBy hp hlive (h.used_inView hlive htoken) hz

include hs

/-- The producers of what is in view at a member are members that come before. -/
theorem madeBy_before (ho : o ∈ p.members blocks) (hlive : q.isLive o = true)
    (hv : q.InView o v) (hz : q.MadeBy v z) : z ∈ p.members blocks ∧ p.happens z = true ∧
      (p.members blocks).idxOf z < (p.members blocks).idxOf o := by
  obtain ⟨w, hvw, hz⟩ := hz
  induction hvw using ReflTransGen.head_induction_on generalizing o with
  | refl =>
    rw [h.prunes.producerOp?_eq hp fun _ => h.prunes.isLive_of_inView hp.linked hv] at hz
    exact hs.producerOp_before hp ho ((h.prunes.inView_iff hp.linked hlive).1 hv).1 hz
  | head hstep _ ih =>
    obtain ⟨a, y, ha, hkind, hnested, hylive, hyw⟩ := h.yielded_operand hp hv hstep
    obtain ⟨hymem, hlt⟩ := hs.result_before hp ho ((h.prunes.inView_iff hp.linked hlive).1 hv).1 ha
      (.single ⟨shares_of_branch hkind, hnested⟩)
    obtain ⟨hmem, hhappens, hlt'⟩ := ih hymem hylive
      (h.wellScoped y hylive _ (List.mem_append_left _ hyw))
    exact ⟨hmem, hhappens, by omega⟩

/-- What a member awaits is a member that comes before. -/
theorem awaits_before (ho : o ∈ p.members blocks) (hlive : q.isLive o = true)
    (hz : q.Awaits o z) : z ∈ p.members blocks ∧ p.happens z = true ∧
      (p.members blocks).idxOf z < (p.members blocks).idxOf o := by
  obtain ⟨token, htoken, -, hz⟩ := hz
  exact h.madeBy_before hp hs ho hlive (h.used_inView hlive htoken) hz

omit hs

/-- Nothing awaits itself. -/
theorem not_awaits_self {c : Context} {t : ScopeTree}
    (ht : Laid p c [] none (p.funcs.map (·.body)) t) (hlive : q.isLive o = true)
    (hkind : (p.kind o).isComputePrimitive = false) : ¬ q.Awaits o o := by
  rcases ht.covers hp (h.prunes.lt hlive) with ⟨-, call, blocks, -, -, hs, -, hmem⟩ | hprim
  · intro hself
    exact Nat.lt_irrefl _ (h.awaits_before hp hs hmem hlive hself).2.2
  · rw [hkind] at hprim
    cases hprim

/-- There are no more values in view than there are values. -/
theorem exists_viewed : ∃ vs : List ValueId, vs.length ≤ q.values.size ∧
    ∀ v, v ∈ vs ↔ ∃ o, q.isLive o = true ∧ q.InView o v := by
  classical
  refine ⟨((List.range q.values.size).map ValueId.mk).filter fun v =>
    decide (∃ o, q.isLive o = true ∧ q.InView o v), ?_, fun v => ?_⟩
  · exact Nat.le_trans (List.length_filter_le _ _) (by simp)
  · rw [List.mem_filter, decide_eq_true_eq]
    refine ⟨And.right, fun hview => ⟨?_, hview⟩⟩
    obtain ⟨o, ho, hv⟩ := hview
    have hlt := hp.linked.lt_of_visible ((h.prunes.inView_iff hp.linked ho).1 hv).1
    rw [← h.prunes.size_values] at hlt
    exact List.mem_map.2 ⟨v.index, List.mem_range.2 hlt, rfl⟩

/-- A search for producers finds all of them. -/
theorem mem_producers {c : Context} {key : Key} (hlive : q.isLive o = true) (hv : q.InView o token)
    (hz : q.MadeBy token z) (hexit : c.exit? z = some key) : key ∈ q.producers c token := by
  obtain ⟨w, hw, hz⟩ := hz
  obtain ⟨vs, hlength, hvs⟩ := h.exists_viewed hp
  rw [producers, List.mem_eraseDups, List.mem_filterMap]
  refine ⟨w, ?_, by rw [directProducer?_eq, hz, Option.bind_some, hexit]⟩
  have hclosed : ∀ a ∈ vs, ∀ b ∈ q.yieldedBy a, b ∈ vs := fun a ha b hb => by
    obtain ⟨o, -, hv⟩ := (hvs a).1 ha
    obtain ⟨y, hy, hyb⟩ := h.yielded_inView hp hv hb
    exact (hvs b).2 ⟨y, hy, hyb⟩
  have hfirst : ∀ a ∈ [token], a ∈ vs := fun a ha => by
    rw [List.mem_singleton.1 ha]
    exact (hvs token).2 ⟨o, hlive, hv⟩
  exact (mem_visit_iff hclosed hfirst hlength).2 ⟨token, List.mem_singleton_self _, hw⟩

end Scoped

end Program

end AsyncOrder
