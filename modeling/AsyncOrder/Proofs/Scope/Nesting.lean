import AsyncOrder.Proofs.Scope.Building

/-!
# The tree of scopes

Every node of a tree that has been built is drawn from the members of its blocks, and its
children are the bodies of the hierarchy calls among them, in order (`Laid`).  The context is
the last one, which knows all that the earlier ones knew.
-/

namespace AsyncOrder

open Program

variable {p : Program} {c c' : Context} {path : Path} {call : Option OpId}
variable {blocks : List BlockId} {t : ScopeTree} {done : List OpId} {o h : OpId}

/-- The kind of the scope that is the body of `call`. -/
def Program.scopeKind (p : Program) : Option OpId → ScopeKind
  | none => .host
  | some h =>
    match p.kind h with
    | .hierarchy level _ => .body level
    | _ => .host

theorem Program.scopeKind_some {level : Level} {ids : Nat} (hkind : p.kind h = .hierarchy level ids) :
    p.scopeKind (some h) = .body level := by
  rw [scopeKind, hkind]

/-- The hierarchy calls in a list of operations. -/
def Program.callsIn (p : Program) (ops : List OpId) : List OpId :=
  ops.filter fun o => (p.kind o).isHierarchy

theorem Program.callsIn_append_call (ops : List OpId) (ho : (p.kind o).isHierarchy = true) :
    p.callsIn (ops ++ [o]) = p.callsIn ops ++ [o] := by
  rw [callsIn, List.filter_append, List.filter_singleton, ho]
  rfl

theorem Program.callsIn_append_other (ops : List OpId) (ho : (p.kind o).isHierarchy = false) :
    p.callsIn (ops ++ [o]) = p.callsIn ops := by
  rw [callsIn, List.filter_append, List.filter_singleton, ho]
  exact List.append_nil _

/-- The tree at `path` is that of the blocks, which are the body of `call`. -/
inductive Laid (p : Program) (c : Context) :
    Path → Option OpId → List BlockId → ScopeTree → Prop
  | node {path : Path} {call : Option OpId} {blocks : List BlockId} {s : Scope}
      {ts : List ScopeTree} (drawn : Drawn p c path (p.scopeKind call) call (p.members blocks) s)
      (native : ∀ o ∈ p.members blocks, p.foreign? o = none)
      (length : ts.length = (p.callsIn (p.members blocks)).length)
      (children : ∀ i h t, (p.callsIn (p.members blocks))[i]? = some h → ts[i]? = some t →
        Laid p c (path ++ [i]) (some h) (p.body? h).toList t) :
      Laid p c path call blocks (.node s ts)

theorem Laid.mono (ht : Laid p c path call blocks t) (hc : c.Extends c') :
    Laid p c' path call blocks t := by
  induction ht with
  | node drawn native length _ ih => exact .node (drawn.mono hc) native length ih

/-! ## Building -/

/-- An operation, and all that lies in it if it has a scope of its own. -/
def Program.covered (p : Program) (o : OpId) : List OpId :=
  o :: if (p.kind o).isHierarchy then p.everything (p.nested o) else []

/-- What building the scopes relies on: what lies in a call is its body, has lesser numbers, and is
met once. -/
structure Program.Nests (p : Program) : Prop where
  body : ∀ o, o.index < p.ops.size → (p.kind o).isHierarchy = true →
    p.nested o = p.blocksOps (p.body? o).toList
  lt : ∀ blocks, ∀ o ∈ p.members blocks, o.index < p.ops.size
  inner_lt : ∀ z, ∀ x ∈ p.everything (p.nested z), x.index < z.index
  covers : ∀ blocks, p.everything (p.blocksOps blocks) = (p.members blocks).flatMap p.covered
  nodup : ∀ call blocks, p.IsScope call blocks → (p.everything (p.blocksOps blocks)).Nodup

theorem Program.WellFormed.nests (hp : p.WellFormed) : p.Nests where
  body _ := hp.nested_hierarchy
  lt _ _ := lt_of_mem_members hp.linked
  inner_lt _ _ := hp.linked.lt_of_mem_everything
  covers blocks := everything_eq hp.linked (hp.linked.blocksOps_lt blocks)
  nodup _ _ hs := hs.nodup_everything hp

/-- The draft of a scope after the members `pre`. -/
structure Draft.Upto (p : Program) (c : Context) (done : List OpId) (path : Path)
    (call : Option OpId) (pre : List OpId) (d : Draft) : Prop where
  drawn : Drawn p d.context path (p.scopeKind call) call pre d.scope
  fresh : d.context.Fresh (done ++ pre.flatMap p.covered)
  grown : c.Extends d.context
  native : ∀ o ∈ pre, p.foreign? o = none
  length : d.children.length = (p.callsIn pre).length
  children : ∀ i h t, (p.callsIn pre)[i]? = some h → d.children[i]? = some t →
    Laid p d.context (path ++ [i]) (some h) (p.body? h).toList t

/-- What is asked of the scopes below: they are laid and know of nothing else. -/
def BuildsWell (p : Program) (build : Context → Except Failure (ScopeTree × Context))
    (path : Path) (call : Option OpId) (blocks : List BlockId) : Prop :=
  ∀ c done t c', c.Fresh done → (∀ x ∈ p.everything (p.blocksOps blocks), x ∉ done) →
    build c = .ok (t, c') → Laid p c' path call blocks t ∧ c.Extends c' ∧
      c'.Fresh (done ++ p.everything (p.blocksOps blocks))

variable {pre : List OpId} {d d' : Draft}

theorem Draft.upto_bare (path : Path) (call : Option OpId) (hc : c.Fresh done) :
    (Draft.bare (p.scopeKind call) call path c).Upto p c done path call [] := by
  have hadds := Draft.adds_addEvent path ⟨.start, "start", none, none⟩
    (d := ⟨⟨p.scopeKind call, call, [], [], none⟩, [], c⟩) hc
  refine ⟨.bare hc, ?_, hadds.extends', fun o ho => absurd ho List.not_mem_nil, rfl, ?_⟩
  · rw [List.flatMap_nil, List.append_nil]
    exact hadds.fresh done hc
  · intro i h t hh
    simp [callsIn] at hh

theorem Draft.Upto.native_append (h : d.Upto p c done path call pre) (hforeign : p.foreign? o = none) :
    ∀ x ∈ pre ++ [o], p.foreign? x = none := by
  intro x hx
  rcases List.mem_append.1 hx with hx | hx
  · exact h.native x hx
  · rw [List.mem_singleton.1 hx, hforeign]

theorem Draft.Upto.append_other (h : d.Upto p c done path call pre)
    (hcall : (p.kind o).isHierarchy = false) (hforeign : p.foreign? o = none)
    (hdrawn : Drawn p d'.context path (p.scopeKind call) call (pre ++ [o]) d'.scope)
    (hfresh : d'.context.Fresh (o :: (done ++ pre.flatMap p.covered)))
    (hext : d.context.Extends d'.context) (hchildren : d'.children = d.children) :
    d'.Upto p c done path call (pre ++ [o]) where
  drawn := hdrawn
  fresh := by
    have hcovered : p.covered o = [o] := by rw [covered, hcall]; rfl
    refine hfresh.mono fun x hx => ?_
    simp only [List.flatMap_append, List.flatMap_singleton, hcovered, List.mem_append,
      List.mem_cons, List.not_mem_nil, or_false] at hx ⊢
    tauto
  grown := h.grown.trans hext
  native := h.native_append hforeign
  length := by rw [callsIn_append_other pre hcall, hchildren, h.length]
  children i z t hz ht := by
    rw [callsIn_append_other pre hcall] at hz
    exact (h.children i z t hz (hchildren ▸ ht)).mono hext

theorem Draft.Upto.append_call (h : d.Upto p c done path call pre)
    (hcall : (p.kind o).isHierarchy = true) (hforeign : p.foreign? o = none)
    (hdrawn : Drawn p d'.context path (p.scopeKind call) call (pre ++ [o]) d'.scope)
    (hfresh : d'.context.Fresh (o :: (done ++ pre.flatMap p.covered) ++ p.everything (p.nested o)))
    (hext : d.context.Extends d'.context) (hchildren : d'.children = d.children ++ [t])
    (hlaid : Laid p d'.context (path ++ [d.children.length]) (some o) (p.body? o).toList t) :
    d'.Upto p c done path call (pre ++ [o]) where
  drawn := hdrawn
  fresh := by
    have hcovered : p.covered o = o :: p.everything (p.nested o) := by rw [covered, if_pos hcall]
    refine hfresh.mono fun x hx => ?_
    simp only [List.flatMap_append, List.flatMap_singleton, hcovered, List.mem_append,
      List.mem_cons] at hx ⊢
    tauto
  grown := h.grown.trans hext
  native := h.native_append hforeign
  length := by
    rw [callsIn_append_call pre hcall, hchildren, List.length_append, List.length_append, h.length]
    rfl
  children i z t' hz ht' := by
    rw [callsIn_append_call pre hcall] at hz
    rw [hchildren] at ht'
    by_cases hi : i < d.children.length
    · rw [List.getElem?_append_left hi] at ht'
      rw [List.getElem?_append_left (h.length ▸ hi)] at hz
      exact (h.children i z t' hz ht').mono hext
    · obtain rfl : i = d.children.length := by
        have hlt := (List.getElem?_eq_some_iff.1 ht').1
        rw [List.length_append, List.length_singleton] at hlt
        omega
      rw [List.getElem?_concat_length] at ht'
      rw [h.length, List.getElem?_concat_length] at hz
      obtain rfl := Option.some.inj ht'
      obtain rfl := Option.some.inj hz
      exact hlaid

theorem Draft.Upto.step (hp : p.Nests) (h : d.Upto p c done path call pre)
    (hlt : o.index < p.ops.size)
    {inner : Level → OpId → Path → Context → Except Failure (ScopeTree × Context)}
    (hinner : ∀ level ids i, p.kind o = .hierarchy level ids →
      BuildsWell p (inner level o (path ++ [i])) (path ++ [i]) (some o) (p.body? o).toList)
    (hnew : ∀ x ∈ p.covered o, x ∉ done ++ pre.flatMap p.covered)
    (hstep : p.addMember inner path d o = .ok d') :
    d'.Upto p c done path call (pre ++ [o]) := by
  have ho : o ∉ done ++ pre.flatMap p.covered := hnew o List.mem_cons_self
  rw [addMember, h.drawn.kind_eq] at hstep
  split at hstep
  · simp at hstep
  · next hforeign =>
    obtain ⟨hdrawn, hext, hfresh, hchildren⟩ := h.drawn.addOp h.fresh ho
    generalize d.addOp path o (p.events (p.scopeKind call) o) = d₁ at *
    by_cases hcall : (p.kind o).isHierarchy = true
    · obtain ⟨level, ids, hkind⟩ : ∃ level ids, p.kind o = .hierarchy level ids := by
        cases hk : p.kind o <;> simp_all [OpKind.isHierarchy]
      have hnested := hp.body o hlt hcall
      simp only [hkind] at hstep
      obtain ⟨⟨t, c'⟩, hbuilt, hd'⟩ := exists_of_bind_eq_ok hstep
      obtain rfl := Except.ok.inj hd'
      have hapart : ∀ x ∈ p.everything (p.blocksOps (p.body? o).toList),
          x ∉ o :: (done ++ pre.flatMap p.covered) := by
        intro x hx
        rw [← hnested] at hx
        rw [List.mem_cons, not_or]
        refine ⟨?_, hnew x ?_⟩
        · rintro rfl
          exact Nat.lt_irrefl _ (hp.inner_lt x x hx)
        · rw [covered, if_pos hcall]
          exact List.mem_cons_of_mem _ hx
      obtain ⟨hlaid, hext', hfresh'⟩ := hinner level ids d₁.children.length hkind _ _ _ _ hfresh
        hapart hbuilt
      rw [← hnested] at hfresh'
      exact h.append_call hcall hforeign (hdrawn.mono hext') hfresh' (hext.trans hext')
        (hchildren ▸ rfl) (hchildren ▸ hlaid)
    · have hother := Bool.eq_false_iff.2 hcall
      split at hstep
      · next hkind =>
        obtain rfl := Except.ok.inj hstep
        exact h.append_other hother hforeign (hdrawn.markTerminator hkind) hfresh hext hchildren
      · next hkind =>
        rw [hkind] at hcall
        exact absurd rfl hcall
      · obtain rfl := Except.ok.inj hstep
        exact h.append_other hother hforeign hdrawn hfresh hext hchildren

theorem Draft.Upto.foldlM (hp : p.Nests)
    {inner : Level → OpId → Path → Context → Except Failure (ScopeTree × Context)}
    (rest : List OpId) (hlt : ∀ o ∈ rest, o.index < p.ops.size)
    (hinner : ∀ o ∈ rest, ∀ level ids i, p.kind o = .hierarchy level ids →
      BuildsWell p (inner level o (path ++ [i])) (path ++ [i]) (some o) (p.body? o).toList)
    {pre : List OpId} {d d' : Draft} (h : d.Upto p c done path call pre)
    (hnodup : (rest.flatMap p.covered).Nodup)
    (hnew : ∀ x ∈ rest.flatMap p.covered, x ∉ done ++ pre.flatMap p.covered)
    (hrun : rest.foldlM (p.addMember inner path) d = .ok d') :
    d'.Upto p c done path call (pre ++ rest) := by
  induction rest generalizing pre d with
  | nil =>
    obtain rfl := Except.ok.inj hrun
    rw [List.append_nil]
    exact h
  | cons o rest ih =>
    rw [List.flatMap_cons] at hnodup hnew
    obtain ⟨d₁, hstep, hrest⟩ := exists_of_bind_eq_ok hrun
    have h₁ := h.step hp (hlt o List.mem_cons_self) (hinner o List.mem_cons_self)
      (fun x hx => hnew x (List.mem_append_left _ hx)) hstep
    rw [List.append_cons]
    refine ih (fun z hz => hlt z (List.mem_cons_of_mem _ hz))
      (fun z hz => hinner z (List.mem_cons_of_mem _ hz)) h₁ hnodup.of_append_right
      (fun x hx => ?_) hrest
    have hold := hnew x (List.mem_append_right _ hx)
    have hlast : x ∉ p.covered o := fun hxo =>
      (List.nodup_append.1 hnodup).2.2 x hxo x hx rfl
    simp only [List.flatMap_append, List.flatMap_singleton, List.mem_append, not_or] at hold ⊢
    tauto

/-- The scope of blocks and those below it are laid. -/
theorem buildScope_laid (hp : p.Nests) (depth : Nat) (hs : p.IsScope call blocks)
    (hdepth : ∀ o ∈ p.members blocks, o.index < depth) (path : Path) :
    BuildsWell p (p.buildScope depth (p.scopeKind call) call blocks path) path call blocks := by
  induction depth generalizing call blocks path with
  | zero =>
    intro c done t c' hc _ hbuilt
    have hmembers : p.members blocks = [] := List.eq_nil_iff_forall_not_mem.2 fun o ho =>
      Nat.not_lt_zero _ (hdepth o ho)
    have hupto := Draft.upto_bare (p := p) path call hc
    obtain ⟨rfl, rfl⟩ := Prod.mk.inj (Except.ok.inj hbuilt)
    refine ⟨.node (hmembers ▸ hupto.drawn) ?_ ?_ ?_, hupto.grown, ?_⟩
    · simp [hmembers]
    · rw [hmembers]
      rfl
    · simp
    · exact hupto.fresh.mono fun x hx => List.mem_append_left _ (by simpa using hx)
  | succ depth ih =>
    intro c done t c' hc hapart hbuilt
    obtain ⟨d, hrun, hresult⟩ := exists_of_bind_eq_ok hbuilt
    obtain ⟨rfl, rfl⟩ := Prod.mk.inj (Except.ok.inj hresult)
    have hcovers := hp.covers blocks
    have hinner : ∀ o ∈ p.members blocks, ∀ level ids i, p.kind o = .hierarchy level ids →
        BuildsWell p (p.buildScope depth (.body level) (some o) (p.body? o).toList (path ++ [i]))
          (path ++ [i]) (some o) (p.body? o).toList := by
      intro o ho level ids i hkind
      have holt := hp.lt blocks o ho
      have hcall : (p.kind o).isHierarchy = true := by rw [hkind]; rfl
      rw [← scopeKind_some hkind]
      refine ih (.body holt hcall) (fun y hy => ?_) _
      have hyo : y.index < o.index := by
        refine hp.inner_lt o y ?_
        rw [hp.body o holt hcall, hp.covers]
        exact List.mem_flatMap.2 ⟨y, hy, List.mem_cons_self⟩
      have := hdepth o ho
      omega
    have hupto := Draft.Upto.foldlM hp (p.members blocks) (hp.lt blocks) hinner
      (Draft.upto_bare path call hc) (hcovers ▸ hp.nodup _ _ hs)
      (fun x hx => by simpa using hapart x (hcovers ▸ hx)) hrun
    rw [List.nil_append] at hupto
    exact ⟨.node hupto.drawn hupto.native hupto.length hupto.children, hupto.grown,
      hcovers ▸ hupto.fresh⟩

/-- The scopes of a program that builds are laid, and keys have been handed out in order. -/
theorem Program.Nests.built (hp : p.Nests) (h : p.scopeTree = .ok (t, c)) :
    Laid p c [] none (p.funcs.map (·.body)) t ∧
      c.Fresh ([] ++ p.everything (p.blocksOps (p.funcs.map (·.body)))) := by
  obtain ⟨hlaid, -, hfresh⟩ := buildScope_laid hp _ .host (fun o ho => by
    have := hp.lt _ o ho
    omega) [] _ [] t c Context.fresh_empty (fun _ _ => List.not_mem_nil) h
  exact ⟨hlaid, hfresh⟩

theorem Program.Nests.laid (hp : p.Nests) (h : p.scopeTree = .ok (t, c)) :
    Laid p c [] none (p.funcs.map (·.body)) t :=
  (hp.built h).1

theorem laid_of_scopeTree (hp : p.WellFormed) (h : p.scopeTree = .ok (t, c)) :
    Laid p c [] none (p.funcs.map (·.body)) t :=
  hp.nests.laid h

/-! ## Failures to build -/

theorem Program.foreign_of_addMember {f : Failure} {d : Draft}
    {inner : Level → OpId → Path → Context → Except Failure (ScopeTree × Context)}
    (hinner : ∀ level op path c, inner level op path c = .error f → ∃ o bad,
      p.foreign? o = some bad ∧ f = .unknownOpInCompute bad (p.kind bad).label (p.op bad).span)
    (h : p.addMember inner path d o = .error f) : ∃ o bad, p.foreign? o = some bad ∧
      f = .unknownOpInCompute bad (p.kind bad).label (p.op bad).span := by
  rw [addMember] at h
  split at h
  · next bad hbad => exact ⟨o, bad, hbad, (Except.error.inj h).symm⟩
  · split at h
    · cases h
    · rcases error_of_bind_eq_error h with h | ⟨_, -, h⟩
      · exact hinner _ _ _ _ h
      · cases h
    · cases h

/-- Only an operation that is foreign to a compute keeps a scope from being built. -/
theorem Program.foreign_of_buildScope {f : Failure} (depth : Nat) {kind : ScopeKind}
    (h : p.buildScope depth kind call blocks path c = .error f) : ∃ o bad,
      p.foreign? o = some bad ∧
        f = .unknownOpInCompute bad (p.kind bad).label (p.op bad).span := by
  induction depth generalizing kind call blocks path c with
  | zero => cases h
  | succ depth ih =>
    rw [buildScope] at h
    rcases error_of_bind_eq_error h with h | ⟨_, -, h⟩
    · obtain ⟨d, o, h⟩ := error_of_foldlM _ _ h
      exact foreign_of_addMember (fun _ _ _ _ h => ih h) h
    · cases h

/-! ## Subtrees -/

/-- Every subtree is laid for the blocks of a scope. -/
theorem Laid.at? (hp : p.Nests) (ht : Laid p c path call blocks t)
    (hs : p.IsScope call blocks) {path' : Path} {t' : ScopeTree} (h : t.at? path' = some t') :
    ∃ call' blocks', p.IsScope call' blocks' ∧ Laid p c (path ++ path') call' blocks' t' := by
  induction path' generalizing path call blocks t with
  | nil =>
    obtain rfl := Option.some.inj h
    rw [List.append_nil]
    exact ⟨call, blocks, hs, ht⟩
  | cons i path' ih =>
    obtain ⟨drawn, native, length, children⟩ := ht
    next s ts =>
    obtain ⟨child, hchild, hsub⟩ := Option.bind_eq_some_iff.1 h
    obtain ⟨hi, -⟩ := List.getElem?_eq_some_iff.1 hchild
    have hcall : (p.callsIn (p.members blocks))[i]? =
        some (p.callsIn (p.members blocks))[i] := List.getElem?_eq_getElem (length ▸ hi)
    obtain ⟨hmem, hkind⟩ := List.mem_filter.1 (List.mem_of_getElem? hcall)
    have hscope := IsScope.body (hp.lt blocks _ hmem) hkind
    rw [List.append_cons]
    exact ih (children i _ child hcall hchild) hscope hsub

/-! ## Trying a text -/

/-- The text is accepted, its scopes build, and both pass the test. -/
def passes (source : String) (test : Program → ScopeTree → Context → Bool) : Bool :=
  match readProgram source with
  | .error _ => false
  | .ok p =>
    match p.scopeTree with
    | .error _ => false
    | .ok (t, c) => test p t c

theorem passes_iff {source : String} {test : Program → ScopeTree → Context → Bool} :
    passes source test = true ↔ ∃ p t c, readProgram source = .ok p ∧
      p.scopeTree = .ok (t, c) ∧ test p t c = true := by
  rw [passes]
  constructor
  · intro h
    split at h
    · cases h
    · next p hp =>
      split at h
      · cases h
      · next t c ht => exact ⟨p, t, c, hp, ht, h⟩
  · rintro ⟨p, t, c, hp, ht, h⟩
    simp only [hp, ht, h]

end AsyncOrder
