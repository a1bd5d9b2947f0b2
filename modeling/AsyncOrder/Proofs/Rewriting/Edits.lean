import AsyncOrder.Proofs.Dependence.Tracing
import AsyncOrder.Proofs.Rewriting.Limiting

/-!
# Edited programs

Whatever is done to a program once it is read is done by three changes, one after the other

    operations come to use other values              (Rewires)
    an operation is erased                           (eraseOp)
    a hierarchy call loses a parameter               (removeParam)

and each of them leaves a thinned program in which every result and argument is told its place.
So the tables of an accepted program point to one another as they should after any edits:

    readProgram source = .ok p → (p.editAll edits).Intact                       (edits_keep_links)

Nothing is asked of the edits: any operation may be erased, terminators and what is erased
already among them, and the graphs to rewrite from may be those of another program.
-/

namespace AsyncOrder.Program

open Relation

variable {p q r : Program} {o z d : OpId} {b c : BlockId} {v w : ValueId} {i : Nat}

/-! ## Edits -/

inductive Edit where
  | setDeps (o : OpId) (deps : List ValueId)
  | clearDeps (o : OpId)
  | addDep (o : OpId) (token : ValueId)
  | removeDepAt (o : OpId) (i : Nat)
  | removeParam (o : OpId) (i : Nat)
  | replaceUses (old new : ValueId)
  | eraseTokenUses (token : ValueId)
  | eraseOp (o : OpId)
  | traceAll (forced : Option ConflictMode)
  | rewriteTokens (t : ScopeTree)
  | dedupDeps
  | removeDeadComputes
  | collapseJoins
  | limitHierarchyDeps
  | removeUnusedParams

def edit (q : Program) : Edit → Program
  | .setDeps o deps => q.setDeps o deps
  | .clearDeps o => q.clearDeps o
  | .addDep o token => q.addDep o token
  | .removeDepAt o i => q.removeDepAt o i
  | .removeParam o i => q.removeParam o i
  | .replaceUses old new => q.replaceUses old new
  | .eraseTokenUses token => q.eraseTokenUses token
  | .eraseOp o => q.eraseOp o
  | .traceAll forced => (q.traceAll forced).1
  | .rewriteTokens t => (q.rewriteTokens t).1
  | .dedupDeps => q.dedupDeps.1
  | .removeDeadComputes => q.removeDeadComputes.1
  | .collapseJoins => q.collapseJoins.1
  | .limitHierarchyDeps => q.limitHierarchyDeps.1
  | .removeUnusedParams => q.removeUnusedParams.1

def editAll (q : Program) (edits : List Edit) : Program := edits.foldl edit q

/-! ## Links -/

/-- The bodies of functions are reachable, and so are the regions of what they list. -/
inductive Reachable (q : Program) : BlockId → Prop where
  | body {f : Func} (hf : f ∈ q.funcs) : Reachable q f.body
  | region {b c : BlockId} {o : OpId} (hb : Reachable q b) (ho : o ∈ (q.block b).ops)
      (hc : c ∈ (q.op o).regions) : Reachable q c

/-- The tables of a program point to one another as they should. -/
structure Intact (q : Program) : Prop where
  live : ∀ b, q.Reachable b → ∀ o ∈ (q.block b).ops, q.isLive o = true
  parent : ∀ b, q.Reachable b → ∀ o ∈ (q.block b).ops, (q.op o).parent = b
  nodup : ∀ b, q.Reachable b → (q.block b).ops.Nodup
  once : ∀ b, q.Reachable b → ∀ o ∈ (q.block b).ops, ∀ c, o ∈ (q.block c).ops → c = b
  owner : ∀ o, ∀ b ∈ (q.op o).regions, (q.block b).parentOp = some o
  nodup_regions : ∀ o, (q.op o).regions.Nodup
  apart : ∀ o z, ∀ b ∈ (q.op o).regions, b ∈ (q.op z).regions → o = z
  results : ∀ o, q.isLive o = true → ∀ i v, (q.op o).results[i]? = some v →
    v.index < q.values.size ∧ (q.value v).origin = .result o i
  args : ∀ b, q.Reachable b → ∀ i v, (q.block b).args[i]? = some v →
    v.index < q.values.size ∧ (q.value v).origin = .arg b i
  walk : ∀ o, o ∈ q.walk ↔ q.isLive o = true
  nodup_walk : q.walk.Nodup

/-! ## Changes -/

inductive Change (q : Program) : Program → Prop where
  | rewire {r : Program} (h : q.Rewires r) : Change q r
  | erase (o : OpId) : Change q (q.eraseOp o)
  | param (o : OpId) (i : Nat) : Change q (q.removeParam o i)

/-- `r` comes of `q` by changes. -/
def Changes (q r : Program) : Prop := ReflTransGen Change q r

theorem Changes.trans {s : Program} (h : q.Changes r) (h' : r.Changes s) : q.Changes s :=
  ReflTransGen.trans h h'

theorem Change.changes (h : q.Change r) : q.Changes r := ReflTransGen.single h

theorem changes_refl (q : Program) : q.Changes q := ReflTransGen.refl

theorem changes_of_strip (h : r.strip false = q.strip false) : q.Changes r :=
  (Change.rewire (rewires_of_strip h)).changes

theorem changes_foldl {α : Type} {f : Program → α → Program} (hf : ∀ q a, Changes q (f q a))
    (l : List α) (q : Program) : q.Changes (l.foldl f q) := by
  induction l generalizing q with
  | nil => exact changes_refl q
  | cons a l ih => exact (hf q a).trans (ih (f q a))

theorem changes_changeEach {change : Program → OpId → Program × Nat}
    (hchange : ∀ q o, Changes q (change q o).1) (ops : List OpId) (q : Program) :
    q.Changes (q.changeEach ops change).1 := by
  rw [changeEach_eq]
  exact changes_foldl (fun q o => hchange q o) ops q

theorem changes_eraseCompute (w : Sweep) (d : OpId) :
    w.program.Changes (w.eraseCompute d).program := by
  cases hres : (w.program.op d).results with
  | nil =>
    rw [Sweep.eraseCompute, hres]
    exact changes_refl _
  | cons token results =>
    rw [Sweep.eraseCompute_eq hres]
    have hext : w.Extends (fun _ _ => True)
        ((w.waiters token).foldl (Sweep.inherit · (w.program.deps d)) w) :=
      Sweep.extends_foldl _ (fun w o _ => Sweep.extends_inherit fun _ _ => trivial) w
    exact ((changes_of_strip hext.strip).trans
      (Change.rewire rewires_eraseTokenUses).changes).trans (Change.erase d).changes

theorem changes_removeDeadComputes (q : Program) : q.Changes q.removeDeadComputes.1 := by
  have hfold : ∀ (dead : List OpId) (w : Sweep),
      w.program.Changes (dead.foldl Sweep.eraseCompute w).program := by
    intro dead
    induction dead with
    | nil => exact fun w => changes_refl _
    | cons d dead ih => exact fun w => (changes_eraseCompute w d).trans (ih _)
  have hsweep : ∀ limit q, Changes q (sweepDeadComputes limit q).1 := by
    intro limit
    induction limit with
    | zero => exact fun q => changes_refl q
    | succ limit ih =>
      intro q
      rw [sweepDeadComputes]
      split
      · exact changes_refl q
      · exact (hfold _ ⟨q, q.useMap⟩).trans (ih _)
  exact hsweep _ q

theorem changes_collapseJoin (q : Program) (o : OpId) : q.Changes (q.collapseJoin o).1 := by
  unfold collapseJoin
  split
  · split
    · exact (Change.rewire (rewires_replaceUses _ _)).changes.trans (Change.erase o).changes
    · exact changes_refl q
  · exact changes_refl q

theorem changes_removeUnusedParamsOf (q : Program) (o : OpId) :
    q.Changes (q.removeUnusedParamsOf o).1 := by
  rw [removeUnusedParamsOf_eq]
  refine changes_foldl (fun q e => ?_) _ q
  by_cases hused : q.isUsed e.1.2 = true
  · rw [if_pos hused]
    exact changes_refl q
  · rw [if_neg hused]
    exact (Change.param o e.2).changes

/-- Every edit is made of changes. -/
theorem changes_edit (q : Program) (e : Edit) : q.Changes (q.edit e) := by
  cases e with
  | setDeps o deps => exact changes_of_strip ops_strip_setDeps
  | clearDeps o => exact changes_of_strip ops_strip_setDeps
  | addDep o token => exact changes_of_strip strip_addDep
  | removeDepAt o i => exact changes_of_strip ops_strip_setDeps
  | removeParam o i => exact (Change.param o i).changes
  | replaceUses old new => exact (Change.rewire (rewires_replaceUses old new)).changes
  | eraseTokenUses token => exact (Change.rewire rewires_eraseTokenUses).changes
  | eraseOp o => exact (Change.erase o).changes
  | traceAll forced => exact changes_of_strip (strip_traceAll forced)
  | rewriteTokens t => exact changes_of_strip strip_rewriteTokens
  | dedupDeps => exact changes_of_strip strip_dedupDeps
  | removeDeadComputes => exact changes_removeDeadComputes q
  | collapseJoins => exact changes_changeEach changes_collapseJoin _ q
  | limitHierarchyDeps => exact changes_of_strip strip_limitHierarchyDeps
  | removeUnusedParams => exact changes_changeEach changes_removeUnusedParamsOf _ q

theorem changes_editAll (q : Program) (edits : List Edit) : q.Changes (q.editAll edits) :=
  changes_foldl changes_edit edits q

/-! ## Places -/

/-- Results and arguments are told their places. -/
structure Placed (q : Program) : Prop where
  results : ∀ o i v, (q.op o).results[i]? = some v →
    v.index < q.values.size ∧ (q.value v).origin = .result o i
  args : ∀ b i v, (q.block b).args[i]? = some v →
    v.index < q.values.size ∧ (q.value v).origin = .arg b i

theorem Linked.placed (hp : p.Linked) : p.Placed :=
  ⟨fun o i v => (hp.results o i v).1, fun b i v => (hp.args b i v).1⟩

theorem Placed.rewire (h : q.Placed) (hr : q.Rewires r) : r.Placed := by
  constructor
  · intro o i v hv
    rw [hr.results] at hv
    rw [hr.values, hr.value]
    exact h.results o i v hv
  · intro b i v hv
    rw [hr.block] at hv
    rw [hr.values, hr.value]
    exact h.args b i v hv

theorem Placed.eraseOp (h : q.Placed) (d : OpId) : (q.eraseOp d).Placed := by
  have hsize : (q.eraseOp d).values.size = q.values.size :=
    congrArg Array.size (tables_erase _ _).2.1
  constructor
  · intro o i v hv
    rw [show ((q.eraseOp d).op o).results = _ from congrArg (·.results) outline_eraseOp] at hv
    rw [hsize, value_eraseOp]
    exact h.results o i v hv
  · intro b i v hv
    rw [block_eraseOp, args_unlink] at hv
    rw [hsize, value_eraseOp]
    exact h.args b i v hv

/-- What is in the list is told its place. -/
theorem origin_renumber {l : List (ValueId × Nat)} {q : Program} (hw : w ∈ l.map (·.1))
    (hlt : w.index < q.values.size) : ∃ e ∈ l, e.1 = w ∧ ((l.foldl (fun p (e : ValueId × Nat) =>
      p.modifyValue e.1 fun value => { value with origin := .arg b e.2 }) q).value w).origin =
        .arg b e.2 := by
  induction l generalizing q with
  | nil => simp at hw
  | cons e l ih =>
    have hsize : (q.modifyValue e.1 fun value => { value with origin := .arg b e.2 }).values.size =
        q.values.size := Array.size_modify
    rw [List.foldl_cons]
    by_cases hmem : w ∈ l.map (·.1)
    · obtain ⟨x, hx, hxw, horigin⟩ := ih hmem (hsize ▸ hlt)
      exact ⟨x, List.mem_cons_of_mem e hx, hxw, horigin⟩
    · obtain rfl : w = e.1 := by simpa [hmem] using hw
      refine ⟨e, List.mem_cons_self, rfl, ?_⟩
      rcases value_renumber l (q.modifyValue e.1 _) with heq | ⟨x, hx, hxw, -⟩
      · rw [heq, value_modifyValue, if_pos ⟨rfl, hlt⟩]
      · exact absurd (List.mem_map.2 ⟨x, hx, hxw⟩) hmem

/-- The arguments that are left are told their places anew; no other value is an argument of the
body. -/
theorem Placed.removeParam (h : q.Placed) (hnodup : ∀ b, (q.block b).args.Nodup)
    {level : Level} {ids : Nat} (hkind : q.kind o = .hierarchy level ids)
    (hbody : q.body? o = some b) : (q.removeParam o i).Placed := by
  have hsize : (q.removeParam o i).values.size = q.values.size := by
    rw [removeParam_eq hkind hbody, (tables_renumberArgs _ _).2.1]
    rfl
  -- what is no argument of the body is left alone
  have hother : ∀ v, (∀ j, (q.value v).origin ≠ .arg b j) →
      (q.removeParam o i).value v = q.value v := by
    intro v hv
    rcases value_removeParam (w := v) (i := i) hkind hbody with heq | ⟨hmem, -⟩
    · exact heq
    · obtain ⟨j, hj⟩ := List.mem_iff_getElem?.1 hmem
      exact absurd (h.args b j v hj).2 (hv j)
  constructor
  · intro z j v hv
    rw [show ((q.removeParam o i).op z).results = _ from
      congrArg (·.results) (outline_removeParam hkind hbody)] at hv
    obtain ⟨hlt, horigin⟩ := h.results z j v hv
    rw [hsize, hother v fun k => by simp [horigin]]
    exact ⟨hlt, horigin⟩
  · intro c j v hv
    have hmem := (args_removeParam_sublist hkind hbody c).subset (List.mem_of_getElem? hv)
    obtain ⟨k, hk⟩ := List.mem_iff_getElem?.1 hmem
    have hlt := (h.args c k v hk).1
    rw [hsize]
    refine ⟨hlt, ?_⟩
    by_cases hcb : c = b
    · subst hcb
      generalize hr : (q.modifyOp o fun o => { o with operands := o.operands.eraseIdx i }).modifyBlock
        c (fun b => { b with args := b.args.eraseIdx (ids + i) }) = r
      have heq : q.removeParam o i = r.renumberArgs c := hr ▸ removeParam_eq hkind hbody
      have hargs : ((q.removeParam o i).block c).args = (r.block c).args := by
        rw [heq, block, (tables_renumberArgs r c).2.2.1, ← block]
      rw [hargs] at hv
      have hplaces : (r.block c).args.zipIdx.map (·.1) = (r.block c).args := List.zipIdx_map_fst 0 _
      have hsize' : r.values.size = q.values.size := hr ▸ rfl
      obtain ⟨e, he, rfl, horigin⟩ := origin_renumber (b := c) (q := r)
        (hplaces ▸ List.mem_of_getElem? hv) (hsize' ▸ hlt)
      rw [heq]
      refine horigin.trans ?_
      have hplace := List.mk_mem_zipIdx_iff_getElem?.1 he
      have hnodup' : (r.block c).args.Nodup := by
        rw [← hargs]
        exact (hnodup c).sublist (args_removeParam_sublist hkind hbody c)
      obtain ⟨hj, -⟩ := List.getElem?_eq_some_iff.1 hv
      rw [(List.getElem?_inj hj hnodup').1 (hv.trans hplace.symm)]
    · rw [block_removeParam hkind hbody, if_neg fun hbc => hcb hbc.1.symm] at hv
      obtain ⟨-, horigin⟩ := h.args c j v hv
      rw [hother v fun k heq => hcb ?_]
      · exact horigin
      · rw [horigin] at heq
        exact (Origin.arg.inj heq).1

/-! ## What changes keep -/

/-- `q` is `p` thinned out, and told anew where its values stand. -/
structure Follows (p q : Program) : Prop where
  thins : p.Thins q
  placed : q.Placed

theorem Linked.follows (hp : p.Linked) : p.Follows p := ⟨hp.prunes.toThins, hp.placed⟩

theorem modify_eq_self {α : Type} {xs : Array α} {i : Nat} {f : α → α}
    (h : ∀ x, xs[i]? = some x → f x = x) : xs.modify i f = xs := by
  refine Array.ext_getElem? fun j => ?_
  rw [Array.getElem?_modify]
  split
  · next hij =>
    subst hij
    cases hx : xs[i]? with
    | none => rfl
    | some x =>
      show some (f x) = some x
      rw [h x hx]
  · rfl

/-- An id that names no operation is nowhere listed, and erasing it does nothing. -/
theorem eraseOp_of_size_le (hd : q.ops.size ≤ d.index) (hlisted : ∀ b, d ∉ (q.block b).ops) :
    q.eraseOp d = q := by
  have hunlink : q.unlink d = q := by
    have hblocks : q.blocks.modify (q.op d).parent.index
        (fun b => { b with ops := b.ops.filter (· ≠ d) }) = q.blocks := by
      refine modify_eq_self fun x hx => ?_
      have hblock : q.block (q.op d).parent = x := by rw [block, hx, Option.getD_some]
      have hfilter : x.ops.filter (· ≠ d) = x.ops := List.filter_eq_self.2 fun z hz => by
        simpa using fun hzd => hlisted (q.op d).parent (by rwa [hblock, ← hzd])
      rw [hfilter]
    rw [unlink, modifyBlock, hblocks]
  have hsubtree : ∀ z ∈ q.subtree d, z = d := by
    intro z hz
    obtain ⟨s, hs, hpath⟩ := visit_sound hz
    obtain rfl := List.mem_singleton.1 hs
    rcases ReflTransGen.cases_head hpath with rfl | ⟨y, hy, -⟩
    · rfl
    · rw [Leads, nested, op_of_size_le hd] at hy
      exact absurd hy List.not_mem_nil
  have herase : ∀ l : List OpId, (∀ z ∈ l, z = d) →
      l.foldl (fun p o => p.modifyOp o fun o => { o with erased := true }) q = q := by
    intro l hl
    induction l with
    | nil => rfl
    | cons z l ih =>
      obtain rfl := hl z List.mem_cons_self
      have hmodify : (q.modifyOp z fun o => { o with erased := true }) = q := by
        rw [modifyOp, modify_eq_self fun x hx => ?_]
        rw [Array.getElem?_eq_none hd] at hx
        cases hx
      rw [List.foldl_cons, hmodify]
      exact ih fun y hy => hl y (List.mem_cons_of_mem _ hy)
  rw [eraseOp, hunlink]
  exact herase _ hsubtree

/-- What is no call keeps its operands. -/
theorem removeParam_eq_self
    (hcall : ¬ ∃ level ids b, q.kind o = .hierarchy level ids ∧ q.body? o = some b) :
    q.removeParam o i = q := by
  unfold removeParam
  split
  · next level ids b hkind hbody => exact absurd ⟨level, ids, b, hkind, hbody⟩ hcall
  · rfl

theorem Change.isLive (h : q.Change r) (ho : r.isLive o = true) : q.isLive o = true := by
  cases h with
  | rewire hr => exact hr.isLive o ▸ ho
  | erase d => exact (isLive_eraseOp.1 ho).1
  | param d i =>
    by_cases hcall : ∃ level ids b, q.kind d = .hierarchy level ids ∧ q.body? d = some b
    · obtain ⟨level, ids, b, hkind, hbody⟩ := hcall
      exact isLive_removeParam hkind hbody ▸ ho
    · exact removeParam_eq_self hcall ▸ ho

/-- Nothing comes back to life. -/
theorem Changes.isLive (h : q.Changes r) (ho : r.isLive o = true) : q.isLive o = true := by
  induction h with
  | refl => exact ho
  | tail _ hstep ih => exact ih (hstep.isLive ho)

namespace Follows

variable (hp : p.Linked) (h : p.Follows q)
include hp h

theorem change (hr : q.Change r) : p.Follows r := by
  cases hr with
  | rewire hr => exact ⟨h.thins.rewire hr, h.placed.rewire hr⟩
  | erase o =>
    by_cases ho : o.index < q.ops.size
    · exact ⟨h.thins.eraseOp hp ho, h.placed.eraseOp o⟩
    · have hlisted : ∀ b, o ∉ (q.block b).ops := by
        intro b hb
        have := hp.size_of_mem_ops ((h.thins.ops b).subset hb)
        have := h.thins.size_ops
        omega
      rwa [eraseOp_of_size_le (Nat.le_of_not_lt ho) hlisted]
  | param o i =>
    have hnodup : ∀ b, (q.block b).args.Nodup := fun b =>
      (hp.nodup_args b).sublist (h.thins.args_sublist b)
    by_cases hcall : ∃ level ids b, q.kind o = .hierarchy level ids ∧ q.body? o = some b
    · obtain ⟨level, ids, b, hkind, hbody⟩ := hcall
      exact ⟨h.thins.removeParam hkind hbody hp, h.placed.removeParam hnodup hkind hbody⟩
    · rwa [removeParam_eq_self hcall]

theorem changes (hr : q.Changes r) : p.Follows r := by
  induction hr with
  | refl => exact h
  | tail _ hstep ih => exact ih.change hp hstep

end Follows

/-- What is reachable belongs to nothing that is erased. -/
theorem Thins.isLive_of_reachable (hp : p.WellFormed) (h : p.Thins q) (hb : q.Reachable b) :
    ∀ z, (q.block b).parentOp = some z → q.isLive z = true := by
  induction hb with
  | @body f hf =>
    intro z hz
    have hroot := ((hp.mem_bodies f.body).1 (List.mem_map_of_mem (h.funcs ▸ hf))).2
    rw [h.owner, hroot] at hz
    cases hz
  | @region b c o hb ho hc ih =>
    intro z hz
    rw [h.regions] at hc
    rw [h.owner, (hp.linked.mem_regions o c).1 hc] at hz
    cases hz
    exact h.within b ih o ho

theorem Follows.intact (hp : p.WellFormed) (h : p.Follows q) : q.Intact := by
  have hthins := h.thins
  have hparent : ∀ b, ∀ o ∈ (q.block b).ops, (q.op o).parent = b := fun b o ho => by
    rw [hthins.parent]
    exact hp.linked.parent_of_mem_ops ((hthins.ops b).subset ho)
  have howner : ∀ o, ∀ b ∈ (q.op o).regions, (q.block b).parentOp = some o := fun o b hb => by
    rw [hthins.owner]
    exact (hp.linked.mem_regions o b).1 (hthins.regions o ▸ hb)
  constructor
  case live => exact fun b hb => hthins.within b (hthins.isLive_of_reachable hp hb)
  case parent => exact fun b _ => hparent b
  case nodup => exact fun b _ => (hp.linked.nodup_ops b).sublist (hthins.ops b)
  case once => exact fun b _ o ho c hc => (hparent c o hc).symm.trans (hparent b o ho)
  case owner => exact howner
  case nodup_regions => exact fun o => hthins.regions o ▸ hp.linked.nodup_regions o
  case apart =>
    intro o z b ho hz
    exact Option.some.inj ((howner o b ho).symm.trans (howner z b hz))
  case results => exact fun o _ => h.placed.results o
  case args => exact fun b _ => h.placed.args b
  case walk => exact fun o => hthins.mem_walk hp
  case nodup_walk => exact hthins.nodup_walk hp

/-- No edits break the links of an accepted program. -/
theorem edits_keep_links {source : String} (hsource : readProgram source = .ok p)
    (edits : List Edit) : (p.editAll edits).Intact := by
  have hp := wellFormed_of_readProgram hsource
  exact (hp.linked.follows.changes hp.linked (changes_editAll p edits)).intact hp

def loopInCall : String := "func @f(%m: memref<4, L2>, %n: index) \x7b
  %t = segment args(%a = %m, %k = %n) \x7b
    for %i = %k to %k step %k \x7b
      %x = transfer %a <- %a
      yield
    \x7d
    end
  \x7d
  %j = join [%t]
\x7d
"

/-- A parameter of the call goes that is in use, the end of its body, what is in the loop, and the
loop around it. -/
def takeApart : List Edit :=
  [.removeParam ⟨4⟩ 0, .eraseOp ⟨3⟩, .eraseOp ⟨0⟩, .eraseOp ⟨2⟩, .traceAll none, .collapseJoins]

theorem edits_keep_links_takeApart : ∃ p, readProgram loopInCall = .ok p ∧
    p.walk = [⟨4⟩, ⟨2⟩, ⟨0⟩, ⟨1⟩, ⟨3⟩, ⟨5⟩] ∧ (p.editAll takeApart).walk = [⟨4⟩] ∧
      (p.editAll takeApart).Intact := by
  obtain ⟨p, hsource, htest⟩ := accepts_iff.1
    (show accepts loopInCall (fun p => p.walk = [⟨4⟩, ⟨2⟩, ⟨0⟩, ⟨1⟩, ⟨3⟩, ⟨5⟩] ∧
      (p.editAll takeApart).walk = [⟨4⟩]) = true by decide +kernel)
  obtain ⟨hbefore, hafter⟩ := of_decide_eq_true htest
  exact ⟨p, hsource, hbefore, hafter, edits_keep_links hsource takeApart⟩

end AsyncOrder.Program
