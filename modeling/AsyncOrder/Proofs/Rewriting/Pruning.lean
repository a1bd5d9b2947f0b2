import AsyncOrder.Proofs.Program.Naming
import AsyncOrder.Proofs.Rewriting.Preservation
import AsyncOrder.Proofs.Rewriting.Elevation
import AsyncOrder.Program.Edit

/-!
# Pruned programs

Cleaning up takes operations out of their blocks and parameters away from calls; what is left
stays where it was.  A value is in view where it is visible by way of live operations, and what is
visible in `p` is in view in a pruned `q` as long as it is still there:

    p.Thins q, o live in q → (q.InView o v ↔ p.Visible o v ∧ q.Present v)      (Thins.inView_iff)

A walk of `q` meets just what is live in it (`Thins.mem_walk`).
-/

namespace AsyncOrder

/-- What stays of an operation: its kind, its results and regions, and its block. -/
def Operation.outline (o : Operation) : Operation :=
  { o with operands := [], deps := [], span := none, erased := false }

namespace Program

open Relation

variable {p q r : Program} {o z d x a c : OpId} {b : BlockId} {v w : ValueId}

/-! ## In view -/

/-- `v` is an argument of a block around `o`, or a result of a live operation that stands before
`o` or before an operation around it; there is no call in between. -/
def InView (p : Program) (o : OpId) (v : ValueId) : Prop :=
  ∃ a, ReflTransGen p.Outer o a ∧ (v ∈ (p.block (p.op a).parent).args ∨
    ∃ z, p.isLive z = true ∧ p.isBefore z a = true ∧ v ∈ (p.op z).results)

/-- Live operations use what is in view only. -/
def WellScoped (p : Program) : Prop :=
  ∀ o, p.isLive o = true → ∀ v ∈ p.used o, p.InView o v

/-- Some block has the argument, or some live operation the result. -/
def Present (p : Program) (v : ValueId) : Prop :=
  (∃ b, v ∈ (p.block b).args) ∨ ∃ z, p.isLive z = true ∧ v ∈ (p.op z).results

/-- What the producer of a visible value sees is visible, too. -/
theorem Linked.visible_trans (hp : p.Linked) (hv : p.Visible o v) (hd : v ∈ (p.op d).results)
    (hw : p.Visible d w) : p.Visible o w := by
  obtain ⟨x, hx, hbefore⟩ := hp.precedes_of_visible hv (hp.definingOp?_of_result hd).1
  obtain ⟨a, ha, hwa⟩ := visible_iff.1 hw
  rcases outer_of_precedes hbefore hx ha with rfl | ha
  · refine visible_iff.2 ⟨x, hx, ?_⟩
    rw [(parent_eq_of_isBefore hbefore).1] at hwa
    exact hwa.imp_right fun ⟨y, hy, hwy⟩ => ⟨y, hp.isBefore_trans hy hbefore, hwy⟩
  · exact visible_iff.2 ⟨a, ha, hwa⟩

/-- Nothing sees its own results. -/
theorem Linked.not_visible_self (hp : p.Linked) (ho : o.index < p.ops.size)
    (hv : v ∈ (p.op o).results) : ¬ p.Visible o v := fun h =>
  hp.not_under_of_precedes ho (hp.precedes_of_visible h (hp.definingOp?_of_result hv).1) .refl

/-! ## Pruning -/

/-- `q` is `p` with some operations erased and some block arguments removed. -/
structure Thins (p q : Program) : Prop where
  size_ops : q.ops.size = p.ops.size
  size_values : q.values.size = p.values.size
  size_blocks : q.blocks.size = p.blocks.size
  funcs : q.funcs = p.funcs
  outline : ∀ o, (q.op o).outline = (p.op o).outline
  owner : ∀ b, (q.block b).parentOp = (p.block b).parentOp
  definingOp? : ∀ v, q.definingOp? v = p.definingOp? v
  carriedOwner? : ∀ v, q.carriedOwner? v = p.carriedOwner? v
  valueType : ∀ v, q.valueType v = p.valueType v
  givenName? : ∀ v, q.givenName? v = p.givenName? v
  args_sublist : ∀ b, (q.block b).args.Sublist (p.block b).args
  ops : ∀ b, (q.block b).ops.Sublist (p.block b).ops
  listed : ∀ o, q.isLive o = true → o ∈ (q.block (q.op o).parent).ops
  around : ∀ o z, q.isLive o = true → q.parentOp? o = some z → q.isLive z = true
  /-- A block lists what is erased only if its owner is erased. -/
  within : ∀ b, (∀ z, (q.block b).parentOp = some z → q.isLive z = true) →
    ∀ o ∈ (q.block b).ops, q.isLive o = true

/-- `q` is `p` with some operations erased, but none that ends what is left, and some block
arguments removed. -/
structure Prunes (p q : Program) : Prop extends Thins p q where
  /-- A terminator lives as long as what it ends the body of. -/
  ends : ∀ z, q.isLive z = true → ∀ o ∈ p.nested z, (p.kind o).isTerminator = true →
    q.isLive o = true

theorem Linked.prunes (hp : p.Linked) : p.Prunes p where
  size_ops := rfl
  size_values := rfl
  size_blocks := rfl
  funcs := rfl
  outline _ := rfl
  owner _ := rfl
  definingOp? _ := rfl
  carriedOwner? _ := rfl
  valueType _ := rfl
  givenName? _ := rfl
  args_sublist _ := List.Sublist.refl _
  ops _ := List.Sublist.refl _
  listed _ ho := hp.mem_ops_parent (lt_of_isLive ho)
  around _ _ _ hz := hp.isLive (hp.owner_lt hz)
  within _ _ _ ho := hp.isLive (hp.size_of_mem_ops ho)
  ends _ _ _ ho _ := hp.isLive (hp.mem_nested_iff.1 ho).1

namespace Thins

variable (h : p.Thins q)
include h

theorem kind (o : OpId) : q.kind o = p.kind o := congrArg (·.kind) (h.outline o)

theorem results (o : OpId) : (q.op o).results = (p.op o).results :=
  congrArg (·.results) (h.outline o)

theorem regions (o : OpId) : (q.op o).regions = (p.op o).regions :=
  congrArg (·.regions) (h.outline o)

theorem parent (o : OpId) : (q.op o).parent = (p.op o).parent :=
  congrArg (·.parent) (h.outline o)

theorem parentOp? (o : OpId) : q.parentOp? o = p.parentOp? o := by
  rw [Program.parentOp?, Program.parentOp?, h.parent, h.owner]

theorem args (b : BlockId) : ∀ v ∈ (q.block b).args, v ∈ (p.block b).args :=
  fun _ hv => (h.args_sublist b).subset hv

theorem outer : q.Outer = p.Outer := by
  funext o z
  rw [Outer, Outer, h.parentOp?, h.kind]

theorem nested_sublist : (q.nested o).Sublist (p.nested o) := by
  rw [nested, nested, h.regions]
  exact List.Sublist.flatMap_right _ fun b _ => h.ops b

theorem lt (ho : q.isLive o = true) : o.index < p.ops.size := h.size_ops ▸ lt_of_isLive ho

/-- Whatever is around a live operation is live. -/
theorem isLive_of_outer (ho : q.isLive o = true) (ha : ReflTransGen p.Outer o a) :
    q.isLive a = true := by
  induction ha with
  | refl => exact ho
  | tail _ hz ih => exact h.around _ _ ih (h.parentOp? _ ▸ hz.1)

/-- What has a result in view lives. -/
theorem isLive_of_inView (hp : p.Linked) (hv : q.InView o v) (hz : q.definingOp? v = some z) :
    q.isLive z = true := by
  rw [h.definingOp?] at hz
  obtain ⟨a, -, hv | ⟨y, hy, -, hv⟩⟩ := hv
  · rw [hp.definingOp?_of_arg (h.args _ v hv)] at hz
    cases hz
  · obtain rfl := Option.some.inj ((hp.definingOp?_of_result (h.results y ▸ hv)).1.symm.trans hz)
    exact hy

variable (hp : p.Linked)
include hp

theorem mem_nested (ho : q.isLive o = true) (hz : p.parentOp? o = some z) : o ∈ q.nested z := by
  refine List.mem_flatMap.2 ⟨(q.op o).parent, ?_, h.listed o ho⟩
  rw [h.regions, h.parent]
  exact (hp.mem_regions z _).2 hz

theorem isBefore_iff (hz : q.isLive z = true) (ho : q.isLive o = true) :
    q.isBefore z o = true ↔ p.isBefore z o = true := by
  rw [hp.isBefore_iff (h.lt hz) (h.lt ho), ← h.parent z, ← h.parent o]
  exact isBefore_iff_of_sorted ((hp.sorted _).sublist (h.ops _)) (h.listed z hz) (h.listed o ho)

theorem inView_iff (ho : q.isLive o = true) :
    q.InView o v ↔ p.Visible o v ∧ q.Present v := by
  rw [visible_iff, InView, h.outer]
  constructor
  · rintro ⟨a, ha, hv | ⟨z, hz, hbefore, hv⟩⟩
    · exact ⟨⟨a, ha, Or.inl (h.parent a ▸ h.args _ v hv)⟩, Or.inl ⟨_, hv⟩⟩
    · have hbefore := (h.isBefore_iff hp hz (h.isLive_of_outer ho ha)).1 hbefore
      exact ⟨⟨a, ha, Or.inr ⟨z, hbefore, h.results z ▸ hv⟩⟩, Or.inr ⟨z, hz, hv⟩⟩
  · rintro ⟨⟨a, ha, hv⟩, hpresent⟩
    refine ⟨a, ha, ?_⟩
    -- where the value comes from in `q`, it came from in `p`
    rcases hv with hv | ⟨z, hz, hv⟩ <;> rcases hpresent with ⟨b, hb⟩ | ⟨y, hy, hres⟩
    · obtain rfl := hp.eq_of_mem_args hv (h.args b v hb)
      exact Or.inl (h.parent a ▸ hb)
    · exact absurd (h.results y ▸ hres) (hp.not_mem_results_of_arg hv)
    · exact absurd hv (hp.not_mem_results_of_arg (h.args b v hb))
    · obtain rfl := hp.eq_of_mem_results hv (h.results y ▸ hres)
      have hbefore := (h.isBefore_iff hp hy (h.isLive_of_outer ho ha)).2 hz
      exact Or.inr ⟨z, hy, hbefore, (h.results z).symm ▸ hv⟩

end Thins

/-! ## Layouts -/

/-- The bodies of what lives end as they did. -/
theorem Prunes.terminator?_eq (h : p.Prunes q) (hp : p.WellFormed) (hz : q.isLive z = true)
    (hb : b ∈ (p.op z).regions) : ∃ y, q.terminator? b = some y ∧ p.terminator? b = some y ∧
      y ∈ p.nested z ∧ q.isLive y = true := by
  obtain ⟨r, -, -, hsome⟩ := hp.complete_of_mem (h.lt hz) hb
  obtain ⟨y, hy⟩ := Option.isSome_iff_exists.1 hsome
  obtain ⟨hmem, hterm⟩ := WellFormed.mem_ops_of_terminator? hy
  have hnested : y ∈ p.nested z := List.mem_flatMap.2 ⟨b, hb, hmem⟩
  have hlive := h.ends z hz y hnested hterm
  refine ⟨y, ?_, hy, hnested, hlive⟩
  have hlisted := h.listed y hlive
  rw [h.parent, hp.linked.parent_of_mem_ops hmem] at hlisted
  have hlast := getLast?_of_sublist (h.ops b) (hp.linked.nodup_ops b)
    (Option.eq_some_of_filter_eq_some hy) hlisted
  rw [terminator?, hlast, Option.filter_some, h.kind, if_pos hterm]

theorem LaidOut.dep (h : p.LaidOut o) (hv : v ∈ p.deps o) :
    (p.kind o).isAsync = true ∧ p.valueType v = .token := by
  refine ⟨?_, h.2.1 _ (List.mem_map_of_mem hv)⟩
  by_contra hsync
  rw [deps, List.map_eq_nil_iff.1 (h.1 (by simpa using hsync))] at hv
  exact List.not_mem_nil hv

/-- A join has one result, a token. -/
theorem LaidOut.results_join (h : p.LaidOut o) (hkind : p.kind o = .join) {results : List ValueId}
    (hres : (p.op o).results = v :: results) : results = [] ∧ p.valueType v = .token := by
  obtain ⟨-, htypes, -⟩ : OpKind.Shape _ _ _ .join := hkind ▸ h.2.2
  rw [hres, List.map_cons, List.cons.injEq, List.map_eq_nil_iff] at htypes
  exact ⟨htypes.2, htypes.1⟩

/-- A block has the signature it had if it has the arguments it had and yields the same types. -/
theorem signature_congr (htype : r.valueType = q.valueType)
    (hargs : (r.block b).args = (q.block b).args) (hends : r.terminator? b = q.terminator? b)
    (hyields : ∀ y, q.terminator? b = some y →
      (r.op y).operands.map q.valueType = (q.op y).operands.map q.valueType) :
    r.signature b = q.signature b := by
  rw [signature, signature, hargs, hends, htype]
  congr 2
  exact Option.map_congr fun y hy => hyields y hy

/-- An operation is laid out as it was if it uses values of the same types and its bodies have the
signatures they had. -/
theorem LaidOut.congr (h : q.LaidOut o) (houtline : (r.op o).outline = (q.op o).outline)
    (htype : r.valueType = q.valueType)
    (hoperands : (r.op o).operands.map q.valueType = (q.op o).operands.map q.valueType)
    (hdeps : ∀ v ∈ r.deps o, (q.kind o).isAsync = true ∧ q.valueType v = .token)
    (hbodies : ∀ b ∈ (q.op o).regions, r.signature b = q.signature b) : r.LaidOut o := by
  have hkind : r.kind o = q.kind o := congrArg (·.kind) houtline
  have hresults : (r.op o).results = (q.op o).results := congrArg (·.results) houtline
  have hregions : (r.op o).regions = (q.op o).regions := congrArg (·.regions) houtline
  refine ⟨fun hsync => ?_, fun t ht => ?_, ?_⟩
  · rw [List.map_eq_nil_iff, List.eq_nil_iff_forall_not_mem]
    intro v hv
    rw [hkind, (hdeps v hv).1] at hsync
    cases hsync
  · obtain ⟨v, hv, rfl⟩ := List.mem_map.1 ht
    rw [htype]
    exact (hdeps v hv).2
  · rw [hkind, hresults, hregions, List.map_congr_left hbodies, htype, hoperands]
    exact h.2.2

/-! ## Walks -/

/-- A walk goes through what is live. -/
theorem mem_walkFrom (hlt : ∀ z o, o ∈ q.nested z → o.index < z.index) {depth : Nat}
    {ops : List OpId} (hz : z ∈ ops) (hdepth : z.index < depth) (hlive : q.isLive z = true)
    (h : ReflTransGen (fun z o => o ∈ q.nested z ∧ q.isLive o = true) z o) :
    o ∈ q.walkFrom q.isLive (fun _ => true) depth ops := by
  induction depth generalizing ops z with
  | zero => exact absurd hdepth (Nat.not_lt_zero _)
  | succ depth ih =>
    refine List.mem_flatMap.2 ⟨z, hz, ?_⟩
    rw [if_pos hlive, if_pos rfl]
    rcases ReflTransGen.cases_head h with rfl | ⟨y, ⟨hy, hylive⟩, hyo⟩
    · exact List.mem_cons_self
    · have := hlt z y hy
      exact List.mem_cons_of_mem _ (ih hy (by omega) hylive hyo)

/-- What a live operation lies in leads to it through live operations. -/
theorem Thins.live_path (h : p.Thins q) (hp : p.Linked) (ho : q.isLive o = true)
    (hz : p.Under (fun _ => true) z o) : q.isLive z = true ∧
      ReflTransGen (fun z o => o ∈ q.nested z ∧ q.isLive o = true) z o := by
  induction hz using ReflTransGen.head_induction_on with
  | refl => exact ⟨ho, .refl⟩
  | head hzy _ ih =>
    obtain ⟨hy, hyo⟩ := ih
    have hparent := (hp.mem_nested_iff.1 hzy.2).2
    exact ⟨h.around _ _ hy ((h.parentOp? _).trans hparent), .head ⟨h.mem_nested hp hy hparent, hy⟩ hyo⟩

/-- A live operation lies in one that stands in the body of a function. -/
theorem Thins.exists_root (h : p.Thins q) (hp : p.WellFormed) (ho : q.isLive o = true) :
    ∃ z, ∃ f ∈ q.funcs, z ∈ (q.block f.body).ops ∧ q.isLive z = true ∧
      ReflTransGen (fun z o => o ∈ q.nested z ∧ q.isLive o = true) z o := by
  have hlt := h.lt ho
  obtain ⟨n, hn⟩ : ∃ n, p.ops.size - o.index ≤ n := ⟨_, Nat.le_refl _⟩
  -- outwards, since what an operation lies in has the greater number
  induction n generalizing o with
  | zero => omega
  | succ n ih =>
    cases hparent : p.parentOp? o with
    | none =>
      obtain ⟨f, hf, hbody⟩ := List.mem_map.1
        ((hp.mem_bodies _).2 ⟨hp.linked.parent_lt hlt, hparent⟩)
      refine ⟨o, f, h.funcs ▸ hf, ?_, ho, .refl⟩
      rw [hbody, ← h.parent]
      exact h.listed o ho
    | some c =>
      have hc := h.around o c ho ((h.parentOp? o).trans hparent)
      have hless := hp.linked.nested_lt (hp.linked.mem_nested_iff.2 ⟨hlt, hparent⟩)
      obtain ⟨z, f, hf, hz, hlive, hzc⟩ := ih hc (h.lt hc) (by omega)
      exact ⟨z, f, hf, hz, hlive, hzc.tail ⟨h.mem_nested hp.linked ho hparent, ho⟩⟩

/-- A walk meets what is live. -/
theorem Thins.mem_walk (h : p.Thins q) (hp : p.WellFormed) :
    o ∈ q.walk ↔ q.isLive o = true := by
  rw [walk, List.mem_flatMap]
  constructor
  · rintro ⟨f, -, ho⟩
    exact isLive_of_mem_walkFrom ho
  · intro ho
    obtain ⟨z, f, hf, hz, hlive, hzo⟩ := h.exists_root hp ho
    have hless : ∀ z o, o ∈ q.nested z → o.index < z.index := fun z o ho =>
      hp.linked.nested_lt (h.nested_sublist.subset ho)
    have hdepth : z.index < q.walkDepth := Nat.lt_succ_of_lt (lt_of_isLive hlive)
    exact ⟨f, hf, mem_walkFrom hless hz hdepth hlive hzo⟩

theorem Thins.nodup_walk (h : p.Thins q) (hp : p.WellFormed) : q.walk.Nodup := by
  refine List.Sublist.nodup ?_ hp.nodup_walk
  rw [walk, walk, h.funcs]
  refine List.Sublist.flatMap_right _ fun f _ => ?_
  rw [walkBlock, walkBlock, walkDepth, walkDepth, h.size_ops]
  exact walkFrom_sublist (fun o ho => hp.linked.isLive (h.lt ho)) (fun _ ho => ho)
    (fun _ => h.nested_sublist) (h.ops f.body)

end Program

end AsyncOrder
