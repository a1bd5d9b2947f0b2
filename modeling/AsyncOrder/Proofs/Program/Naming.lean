import AsyncOrder.Proofs.Program.Scoping

/-!
# What names mean

Read at an operation, a name means the last value before it in its block that is called so; if
there is none, what it means at the operation around the block, unless that is a hierarchy call.
Which name a value goes by is left open, and so is what names mean beyond a block without owner:

    p.Means called beyond o n v    beyond b n v says that n means v outside of b
-/

namespace AsyncOrder.Program

/-- The last of the values that is called `n`. -/
def latest? (called : ValueId → Option String) (n : String) (vs : List ValueId) : Option ValueId :=
  vs.reverse.find? fun v => called v = some n

/-- What the block of `o` holds when `o` is reached. -/
def before (p : Program) (o : OpId) : List ValueId :=
  (p.block (p.op o).parent).args ++
    ((p.block (p.op o).parent).ops.takeWhile (· ≠ o)).flatMap fun z => (p.op z).results

inductive Means (p : Program) (called : ValueId → Option String)
    (beyond : BlockId → String → ValueId → Prop) : OpId → String → ValueId → Prop
  | inside {o n v} : latest? called n (p.before o) = some v → Means p called beyond o n v
  | outer {o z n v} : latest? called n (p.before o) = none → p.parentOp? o = some z →
      (p.kind z).isHierarchy = false → Means p called beyond z n v → Means p called beyond o n v
  | beyond {o n v} : latest? called n (p.before o) = none → beyond (p.op o).parent n v →
      Means p called beyond o n v

/-- The name that a value was given. -/
def givenName? (p : Program) (v : ValueId) : Option String := (p.value v).name

/-- The names that the values were given, latest first. -/
def entries (p : Program) (vs : List ValueId) : List (String × ValueId) :=
  vs.reverse.filterMap fun v => (p.givenName? v).map fun n => (n, v)

variable {p q : Program} {called called' : ValueId → Option String} {n : String} {v : ValueId}
variable {vs ws : List ValueId} {o z : OpId} {b : BlockId}

/-! ## Latest values -/

theorem mem_of_latest? (h : latest? called n vs = some v) : v ∈ vs ∧ called v = some n :=
  ⟨List.mem_reverse.1 (List.mem_of_find?_eq_some h), by simpa using List.find?_some h⟩

theorem latest?_congr (h : ∀ v ∈ vs, called v = called' v) :
    latest? called n vs = latest? called' n vs := by
  have h : ∀ v ∈ vs.reverse, called v = called' v := fun v hv => h v (List.mem_reverse.1 hv)
  unfold latest?
  generalize vs.reverse = vs at h
  induction vs with
  | nil => rfl
  | cons v vs ih =>
    rw [List.forall_mem_cons] at h
    rw [List.find?_cons, List.find?_cons, h.1, ih h.2]

theorem lookup_entries : (p.entries vs).lookup n = latest? p.givenName? n vs := by
  unfold entries latest?
  induction vs.reverse with
  | nil => rfl
  | cons v vs ih =>
    rw [List.filterMap_cons, List.find?_cons]
    cases hv : p.givenName? v with
    | none => simpa using ih
    | some m =>
      by_cases hm : m = n
      · simp [hm]
      · have hne : (n == m) = false := by simpa using Ne.symm hm
        simp [hm, hne, ih, List.lookup_cons]

theorem map_fst_entries : (p.entries vs).map (·.1) = (vs.filterMap p.givenName?).reverse := by
  rw [entries, List.map_filterMap, ← List.filterMap_reverse]
  refine congrArg (List.filterMap · _) (funext fun v => ?_)
  rw [Option.map_map]
  exact Option.map_id'

theorem entries_append : p.entries (vs ++ ws) = p.entries ws ++ p.entries vs := by
  rw [entries, List.reverse_append, List.filterMap_append]
  rfl

theorem entries_congr (h : ∀ v ∈ vs, q.givenName? v = p.givenName? v) :
    q.entries vs = p.entries vs :=
  List.filterMap_congr fun v hv => by rw [h v (List.mem_reverse.1 hv)]

theorem names_addBlock (args : List (Option String × ValueType)) :
    ((p.addBlock args).2.block ⟨p.blocks.size⟩).args.map (p.addBlock args).2.givenName? =
      args.map (·.1) := by
  rw [block_addBlock, if_pos rfl]
  exact names_addValues p (.arg ⟨p.blocks.size⟩) args

theorem names_newResults (spec : OpSpec) :
    (p.newResults spec).map (p.appendOp b spec).2.givenName? = spec.results.map (·.1) := by
  rw [← names_addValues p (.result ⟨p.ops.size⟩) spec.results]
  refine List.map_congr_left fun v _ => ?_
  rw [givenName?, value_appendOp]

/-- An operation added to a block adds its results to it. -/
theorem Free.locals_appendOp {spec : OpSpec} (hfree : p.Free b spec.regions) (hp : p.Linked) :
    (p.appendOp b spec).2.locals b = p.locals b ++ p.newResults spec := by
  have hnew : ((p.appendOp b spec).2.op ⟨p.ops.size⟩).results = p.newResults spec := by
    rw [op_appendOp, if_pos rfl]
    rfl
  have hold : ∀ z ∈ (p.block b).ops, ((p.appendOp b spec).2.op z).results = (p.op z).results :=
    fun z hz => by rw [hfree.grows.op z (hp.size_of_mem_ops hz)]
  rw [locals, locals, hfree.block_appendOp, if_pos rfl, List.flatMap_append,
    List.flatMap_singleton, hnew, List.flatMap_congr hold, List.append_assoc]

/-! ## Growth -/

theorem before_eq (hp : p.Linked) (ho : o.index < p.ops.size) :
    p.before o = (p.block (p.op o).parent).args ++
      ((p.block (p.op o).parent).ops.filter fun z => z.index < o.index).flatMap
        fun z => (p.op z).results := by
  have hsorted := hp.sorted (p.op o).parent
  have hmem := hp.mem_ops_parent ho
  rw [before]
  congr 2
  generalize (p.block (p.op o).parent).ops = zs at hsorted hmem
  induction zs with
  | nil => rfl
  | cons z zs ih =>
    rw [List.pairwise_cons] at hsorted
    by_cases hz : z = o
    · subst hz
      have hnone : zs.filter (fun x => x.index < z.index) = [] := by
        rw [List.filter_eq_nil_iff]
        intro x hx hlt
        exact Nat.lt_asymm (hsorted.1 x hx) (by simpa using hlt)
      simp [hnone]
    · have ho : o ∈ zs := (List.mem_cons.1 hmem).resolve_left (Ne.symm hz)
      have hlt : z.index < o.index := hsorted.1 o ho
      simp only [ne_eq, hz, not_false_eq_true, decide_true, List.takeWhile_cons_of_pos, hlt,
        List.filter_cons_of_pos]
      rw [ih hsorted.2 ho]

theorem lt_of_mem_before (hp : p.Linked) (h : v ∈ p.before o) : v.index < p.values.size := by
  rcases List.mem_append.1 h with h | h
  · exact hp.arg_lt h
  · obtain ⟨z, -, h⟩ := List.mem_flatMap.1 h
    exact hp.result_lt h

theorem lt_of_mem_locals (hp : p.Linked) (h : v ∈ p.locals b) : v.index < p.values.size := by
  rcases List.mem_append.1 h with h | h
  · exact hp.arg_lt h
  · obtain ⟨z, -, h⟩ := List.mem_flatMap.1 h
    exact hp.result_lt h

theorem Grows.givenName? (h : p.Grows q) (hv : v.index < p.values.size) :
    q.givenName? v = p.givenName? v := congrArg Value.name (h.value v hv)

theorem Grows.locals (h : p.Grows q) (hp : p.Linked)
    (hargs : (q.block b).args = (p.block b).args) (hops : (q.block b).ops = (p.block b).ops) :
    q.locals b = p.locals b := by
  rw [Program.locals, Program.locals, hargs, hops]
  congr 1
  exact List.flatMap_congr fun z hz => by rw [h.op z (hp.size_of_mem_ops hz)]

/-- What stands before an operation stays when the program grows. -/
theorem Grows.before (h : p.Grows q) (hp : p.Linked) (hq : q.Linked) (ho : o.index < p.ops.size) :
    q.before o = p.before o := by
  have hoq := Nat.lt_of_lt_of_le ho h.size_ops
  rw [before_eq hp ho, before_eq hq hoq, h.op o ho, h.args _ (hp.parent_lt ho)]
  congr 1
  have hops : (q.block (p.op o).parent).ops.filter (fun z => z.index < o.index) =
      (p.block (p.op o).parent).ops.filter fun z => z.index < o.index := by
    refine List.Perm.eq_of_pairwise
      (fun x y _ _ hxy hyx => absurd hxy (Nat.lt_asymm hyx)) ((hq.sorted _).filter _)
      ((hp.sorted _).filter _) ?_
    refine (List.perm_ext_iff_of_nodup ((hq.nodup_ops _).filter _)
      ((hp.nodup_ops _).filter _)).2 fun z => ?_
    rw [List.mem_filter, List.mem_filter, hq.mem_ops, hp.mem_ops]
    simp only [decide_eq_true_eq]
    refine and_congr_left fun hz => ?_
    have hzp := Nat.lt_trans hz ho
    rw [h.op z hzp]
    exact and_congr_left fun _ => iff_of_true (Nat.lt_of_lt_of_le hzp h.size_ops) hzp
  rw [hops]
  refine List.flatMap_congr fun z hz => ?_
  rw [h.op z (hp.size_of_mem_ops (List.mem_of_mem_filter hz))]

theorem Grows.latest?_before (h : p.Grows q) (hp : p.Linked) (hq : q.Linked)
    (ho : o.index < p.ops.size) :
    latest? q.givenName? n (q.before o) = latest? p.givenName? n (p.before o) := by
  rw [h.before hp hq ho]
  exact latest?_congr fun v hv => h.givenName? (lt_of_mem_before hp hv)

/-- Names keep their meaning when the program grows. -/
theorem Means.grow {beyond beyond' : BlockId → String → ValueId → Prop} (hp : p.Linked)
    (hq : q.Linked) (h : p.Grows q)
    (hbeyond : ∀ o, o.index < p.ops.size → ∀ n v,
      latest? p.givenName? n (p.before o) = none → beyond (p.op o).parent n v →
        q.Means q.givenName? beyond' o n v)
    (ho : o.index < p.ops.size) (hm : p.Means p.givenName? beyond o n v) :
    q.Means q.givenName? beyond' o n v := by
  induction hm with
  | @inside o n v hv => exact .inside (by rw [h.latest?_before hp hq ho, hv])
  | @outer o z n v hnone hz hkind _ ih =>
    have hzlt : z.index < p.ops.size := hp.owner_lt hz
    have hparent : q.parentOp? o = some z := by
      rw [parentOp?, h.op o ho, h.owned _ z hz]
      exact hz
    refine .outer (by rw [h.latest?_before hp hq ho, hnone]) hparent ?_ (ih hzlt)
    rwa [h.kind_eq hzlt]
  | @beyond o n v hnone hb => exact hbeyond o ho n v hnone hb

end AsyncOrder.Program
