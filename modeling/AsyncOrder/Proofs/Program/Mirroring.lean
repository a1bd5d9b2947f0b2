import AsyncOrder.Proofs.Program.History
import AsyncOrder.Proofs.Program.Stripping

/-!
# A program created anew

A program `q` mirrors a program `p` as far as a part `h` of its history has come when the entities
in `h`, numbered in the order of the whole history `H`, are in `q` what they are in `p`: the same
operations, uses, results and bodies, with the names that are shown for values, and in each block
what has been created in it.  Creating the next entity carries `h` on (`Mirrors.appendOp`,
`Mirrors.addBlock`).
-/

namespace AsyncOrder

/-- Where the entities of a program go in another one. -/
structure Renaming where
  op : OpId → OpId
  value : ValueId → ValueId
  block : BlockId → BlockId

/-- The operation that stands for `o`; it has no position. -/
def Renaming.operation (r : Renaming) (o : Operation) : Operation :=
  ⟨o.kind, o.operands.map r.value, o.deps.map r.value, o.results.map r.value,
    o.regions.map r.block, r.block o.parent, none, false⟩

namespace Entity

/-- Entities are numbered in order. -/
def numbering (h : List Entity) : Renaming where
  op o := ⟨(ops h).idxOf o⟩
  value v := ⟨(values h).idxOf v⟩
  block b := ⟨(blocks h).idxOf b⟩

structure Distinct (h : List Entity) : Prop where
  ops : (ops h).Nodup
  values : (values h).Nodup
  blocks : (blocks h).Nodup

end Entity

open Entity (numbering Distinct)

/-! ## Places in a list -/

section places

variable {α : Type} [BEq α] [LawfulBEq α] {l l' L : List α} {a b : α}

theorem idxOf_lt_of_prefix (h : l <+: L) (ha : a ∈ l) : L.idxOf a < l.length := by
  rw [← h.idxOf_eq_of_mem ha]
  exact List.idxOf_lt_length_iff.2 ha

/-- Where the next items are found. -/
theorem map_idxOf_of_prefix (h : l ++ l' <+: L) (hL : L.Nodup) :
    l'.map L.idxOf = List.range' l.length l'.length := by
  obtain ⟨t, rfl⟩ := h
  refine List.ext_getElem (by simp) fun i hi _ => ?_
  rw [List.length_map] at hi
  have hlt : l.length + i < (l ++ l' ++ t).length := by simp; omega
  have hget : (l ++ l' ++ t)[l.length + i] = l'[i] := by
    rw [List.getElem_append_left (by simp; omega), List.getElem_append_right (by omega)]
    simp
  rw [List.getElem_map, List.getElem_range', ← hget, hL.idxOf_getElem _ hlt, Nat.one_mul]

theorem idxOf_of_prefix (h : l ++ [a] <+: L) (hL : L.Nodup) : L.idxOf a = l.length := by
  simpa using map_idxOf_of_prefix h hL

end places

namespace Program

variable {p q : Program} {H h : List Entity} {fs : List Func} {o : OpId} {b : BlockId} {v : ValueId}

structure Mirrors (p : Program) (H h : List Entity) (fs : List Func) (q : Program) : Prop where
  parents : ∀ o, .op o ∈ h → .block (p.op o).parent ∈ h
  regions : ∀ o, .op o ∈ h → ∀ b ∈ (p.op o).regions, .block b ∈ h
  used : ∀ o, .op o ∈ h → ∀ v ∈ p.used o, .value v ∈ h
  size_ops : q.ops.size = (Entity.ops h).length
  size_values : q.values.size = (Entity.values h).length
  size_blocks : q.blocks.size = (Entity.blocks h).length
  op : ∀ o, .op o ∈ h → (q.op ((numbering H).op o)).strip true = (numbering H).operation (p.op o)
  value : ∀ v, .value v ∈ h → q.valueType ((numbering H).value v) = p.valueType v ∧
    q.givenName? ((numbering H).value v) = some (p.valueName v)
  block : ∀ b, .block b ∈ h → q.block ((numbering H).block b) =
    ⟨(p.block b).args.map (numbering H).value,
      ((Entity.ops h).filter fun o => (p.op o).parent = b).map (numbering H).op,
      ((Entity.ops h).reverse.find? fun o => b ∈ (p.op o).regions).map (numbering H).op⟩
  funcs : q.funcs = fs.map fun f => ⟨f.name, (numbering H).block f.body⟩

theorem mirrors_empty : p.Mirrors H [] [] .empty where
  parents _ ho := absurd ho List.not_mem_nil
  regions _ ho := absurd ho List.not_mem_nil
  used _ ho := absurd ho List.not_mem_nil
  size_ops := rfl
  size_values := rfl
  size_blocks := rfl
  op _ ho := absurd ho List.not_mem_nil
  value _ hv := absurd hv List.not_mem_nil
  block _ hb := absurd hb List.not_mem_nil
  funcs := rfl

/-- The names and types that values have in the copy. -/
def shown (p : Program) (vs : List ValueId) : List (Option String × ValueType) :=
  vs.map fun v => (some (p.valueName v), p.valueType v)

section places

variable (hH : Distinct H) (hpre : h <+: H)
include hH hpre

omit hH in
theorem Mirrors.op_lt (hm : p.Mirrors H h fs q) (ho : .op o ∈ h) :
    ((numbering H).op o).index < q.ops.size := by
  rw [hm.size_ops]
  exact idxOf_lt_of_prefix (hpre.filterMap _) (Entity.mem_ops.2 ho)

omit hH in
theorem Mirrors.value_lt (hm : p.Mirrors H h fs q) (hv : .value v ∈ h) :
    ((numbering H).value v).index < q.values.size := by
  rw [hm.size_values]
  exact idxOf_lt_of_prefix (hpre.filterMap _) (Entity.mem_values.2 hv)

omit hH in
theorem Mirrors.block_lt (hm : p.Mirrors H h fs q) (hb : .block b ∈ h) :
    ((numbering H).block b).index < q.blocks.size := by
  rw [hm.size_blocks]
  exact idxOf_lt_of_prefix (hpre.filterMap _) (Entity.mem_blocks.2 hb)

end places

/-- Values that are added with the names and types shown for `vs` are copies of `vs`. -/
theorem value_addValues_shown {vs : List ValueId} (hH : (Entity.values H).Nodup)
    (hpre : Entity.values h ++ vs <+: Entity.values H)
    (hsize : q.values.size = (Entity.values h).length) (origin : Nat → Origin) :
    (q.addValues origin (p.shown vs)).1 = vs.map (numbering H).value ∧
      ∀ v ∈ vs, ∃ place, (q.addValues origin (p.shown vs)).2.value ((numbering H).value v) =
        ⟨p.valueType v, place, some (p.valueName v)⟩ := by
  have hplaces := map_idxOf_of_prefix hpre hH
  rw [← hsize] at hplaces
  constructor
  · rw [addValues, shown, List.length_map, ← hplaces, List.map_map]
    rfl
  · intro v hv
    obtain ⟨i, hi, rfl⟩ := List.mem_iff_getElem.1 hv
    have hplace : (numbering H).value vs[i] = ⟨q.values.size + i⟩ := by
      have := congrArg (·[i]?) hplaces
      simp only [List.getElem?_map, List.getElem?_eq_getElem hi, List.getElem?_range' hi,
        Option.map_some, Nat.one_mul, Option.some.injEq] at this
      exact congrArg ValueId.mk this
    refine ⟨origin i, ?_⟩
    have hspec : (p.shown vs)[i]? = some (some (p.valueName vs[i]), p.valueType vs[i]) := by
      rw [shown, List.getElem?_map, List.getElem?_eq_getElem hi]
      rfl
    rw [hplace]
    exact value_addValues_add q origin (p.shown vs) hspec

theorem numbering_block_inj (hb : .block b ∈ H) {c : BlockId} :
    (numbering H).block b = (numbering H).block c ↔ b = c := by
  refine ⟨fun heq => ?_, fun heq => heq ▸ rfl⟩
  exact (List.idxOf_inj (Entity.mem_blocks.2 hb)).1 (congrArg BlockId.index heq)

/-- The next operation is added, with its results. -/
theorem Mirrors.appendOp (hm : p.Mirrors H h fs q) (hH : Distinct H)
    (hpre : h ++ .op o :: (p.op o).results.map .value <+: H)
    (hparent : .block (p.op o).parent ∈ h) (hregions : ∀ b ∈ (p.op o).regions, .block b ∈ h)
    (hused : ∀ v ∈ p.used o, .value v ∈ h) (span : Option Span) :
    p.Mirrors H (h ++ .op o :: (p.op o).results.map .value) fs
      (q.appendOp ((numbering H).block (p.op o).parent)
        ⟨(p.op o).kind, (p.op o).operands.map (numbering H).value,
          (p.op o).deps.map (numbering H).value, p.shown (p.op o).results,
          (p.op o).regions.map (numbering H).block, span⟩).2 := by
  obtain ⟨hops, hvalues, hblocks⟩ := Entity.lists_op o (p.op o).results
  have hh := (List.prefix_append h _).trans hpre
  have hprev := hpre.filterMap Entity.value?
  rw [← Entity.values, ← Entity.values, Entity.values_append, hvalues] at hprev
  have hpreo := hpre.filterMap Entity.op?
  rw [← Entity.ops, ← Entity.ops, Entity.ops_append, hops] at hpreo
  have hnew : (numbering H).op o = ⟨q.ops.size⟩ := by
    rw [hm.size_ops, ← idxOf_of_prefix hpreo hH.ops]
    rfl
  obtain ⟨hresults, hshown⟩ := value_addValues_shown (p := p) hH.values hprev hm.size_values
    (.result ⟨q.ops.size⟩)
  have hmem : ∀ x, .op x ∈ h ++ .op o :: (p.op o).results.map .value ↔ .op x ∈ h ∨ x = o := by
    intro x
    rw [← Entity.mem_ops, Entity.ops_append, hops, List.mem_append, Entity.mem_ops,
      List.mem_singleton]
  have hmemb : ∀ c, .block c ∈ h ++ .op o :: (p.op o).results.map .value ↔ .block c ∈ h := by
    intro c
    rw [← Entity.mem_blocks, Entity.blocks_append, hblocks, List.append_nil, Entity.mem_blocks]
  constructor
  case parents =>
    intro x hx
    rw [hmemb]
    rcases (hmem x).1 hx with hx | rfl
    · exact hm.parents x hx
    · exact hparent
  case regions =>
    intro x hx c hc
    rw [hmemb]
    rcases (hmem x).1 hx with hx | rfl
    · exact hm.regions x hx c hc
    · exact hregions c hc
  case used =>
    intro x hx v hv
    refine List.mem_append_left _ ?_
    rcases (hmem x).1 hx with hx | rfl
    · exact hm.used x hx v hv
    · exact hused v hv
  case size_ops =>
    rw [size_ops_appendOp, hm.size_ops, Entity.ops_append, hops, List.length_append]
    rfl
  case size_values =>
    rw [size_values_appendOp, hm.size_values, Entity.values_append, hvalues, List.length_append,
      shown, List.length_map]
  case size_blocks =>
    rw [size_blocks_appendOp, hm.size_blocks, Entity.blocks_append, hblocks, List.append_nil]
  case op =>
    intro x hx
    rw [op_appendOp]
    rcases (hmem x).1 hx with hx | rfl
    · rw [if_neg (Nat.ne_of_lt (hm.op_lt hh hx))]
      exact hm.op x hx
    · rw [hnew, if_pos rfl, newOp, newResults, hresults]
      rfl
  case value =>
    intro v hv
    rw [valueType, givenName?, value_appendOp]
    rw [← Entity.mem_values, Entity.values_append, hvalues, List.mem_append, Entity.mem_values] at hv
    rcases hv with hv | hv
    · rw [value_addValues_of_lt _ _ _ (hm.value_lt hh hv)]
      exact hm.value v hv
    · obtain ⟨place, hv⟩ := hshown v hv
      rw [hv]
      exact ⟨rfl, rfl⟩
  case block =>
    intro c hc
    rw [hmemb] at hc
    have hinj : (numbering H).block (p.op o).parent = (numbering H).block c ↔ (p.op o).parent = c :=
      numbering_block_inj (hh.subset hparent)
    have hregion : (numbering H).block c ∈ (p.op o).regions.map (numbering H).block ↔
        c ∈ (p.op o).regions := by
      refine ⟨fun hmem => ?_, fun hmem => List.mem_map_of_mem hmem⟩
      obtain ⟨d, hd, heq⟩ := List.mem_map.1 hmem
      rwa [← (numbering_block_inj (hh.subset (hregions d hd))).1 heq]
    rw [block_appendOp _ _ _ (hm.block_lt hh hc), hm.block c hc, Entity.ops_append, hops,
      List.filter_append, List.reverse_append, List.map_append, ← hnew]
    simp only [hinj, hregion, List.reverse_singleton, List.singleton_append, List.find?_cons,
      List.filter_cons, List.filter_nil, decide_eq_true_eq]
    by_cases hpar : (p.op o).parent = c <;> by_cases hreg : c ∈ (p.op o).regions <;>
      simp [hpar, hreg]
  case funcs => rw [funcs_appendOp, hm.funcs]

theorem Mirrors.kind (hm : p.Mirrors H h fs q) (ho : .op o ∈ h) :
    q.kind ((numbering H).op o) = p.kind o := by
  have h := congrArg Operation.kind (hm.op o ho)
  exact h

theorem Mirrors.operands (hm : p.Mirrors H h fs q) (ho : .op o ∈ h) :
    (q.op ((numbering H).op o)).operands = (p.op o).operands.map (numbering H).value := by
  have h := congrArg Operation.operands (hm.op o ho)
  exact h

/-- When all of its operations have been created, a block ends as it should. -/
theorem Mirrors.terminator? (hm : p.Mirrors H h fs q) (hb : .block b ∈ h)
    (hops : (Entity.ops h).filter (fun o => (p.op o).parent = b) = (p.block b).ops) :
    q.terminator? ((numbering H).block b) = (p.terminator? b).map (numbering H).op := by
  rw [Program.terminator?, hm.block b hb, hops, Program.terminator?]
  simp only [List.getLast?_map]
  cases hlast : (p.block b).ops.getLast? with
  | none => rfl
  | some y =>
    have hy : .op y ∈ h := by
      have hmem := hops ▸ List.mem_of_getLast? hlast
      exact Entity.mem_ops.1 (List.mem_of_mem_filter hmem)
    rw [Option.map_some, Option.filter_some, Option.filter_some, hm.kind hy]
    split <;> rfl

/-- A block yields what it should. -/
theorem Mirrors.yields (hm : p.Mirrors H h fs q) (hb : .block b ∈ h)
    (hops : (Entity.ops h).filter (fun o => (p.op o).parent = b) = (p.block b).ops) :
    (q.signature ((numbering H).block b)).yields = (p.signature b).yields := by
  rw [signature, signature, hm.terminator? hb hops]
  cases hy : p.terminator? b with
  | none => rfl
  | some y =>
    have hmem : y ∈ (p.block b).ops := List.mem_of_getLast? (Option.eq_some_of_filter_eq_some hy)
    have hin : .op y ∈ h := by
      rw [← hops] at hmem
      exact Entity.mem_ops.1 (List.mem_of_mem_filter hmem)
    simp only [Option.map_some, Option.getD_some]
    rw [hm.operands hin, List.map_map]
    refine List.map_congr_left fun v hv => (hm.value v ?_).1
    exact hm.used y hin v (List.mem_append_left _ hv)

theorem Mirrors.next_block (hm : p.Mirrors H h fs q) (hH : Distinct H)
    (hpre : h ++ .block b :: (p.block b).args.map .value <+: H) :
    (numbering H).block b = ⟨q.blocks.size⟩ := by
  have hpreb := hpre.filterMap Entity.block?
  rw [← Entity.blocks, ← Entity.blocks, Entity.blocks_append, (Entity.lists_block _ _).2.2] at hpreb
  rw [hm.size_blocks, ← idxOf_of_prefix hpreb hH.blocks]
  rfl

/-- The next block is added, with its arguments. -/
theorem Mirrors.addBlock (hm : p.Mirrors H h fs q) (hH : Distinct H)
    (hpre : h ++ .block b :: (p.block b).args.map .value <+: H) :
    p.Mirrors H (h ++ .block b :: (p.block b).args.map .value) fs
      (q.addBlock (p.shown (p.block b).args)).2 := by
  obtain ⟨hops, hvalues, hblocks⟩ := Entity.lists_block b (p.block b).args
  have hh := (List.prefix_append h _).trans hpre
  have hprev := hpre.filterMap Entity.value?
  rw [← Entity.values, ← Entity.values, Entity.values_append, hvalues] at hprev
  have hpreb := hpre.filterMap Entity.block?
  rw [← Entity.blocks, ← Entity.blocks, Entity.blocks_append, hblocks] at hpreb
  have hnew := hm.next_block hH hpre
  -- nothing that has been created has to do with the new block
  have hnot : .block b ∉ h := by
    rw [← Entity.mem_blocks]
    have hnodup := hH.blocks.sublist hpreb.sublist
    exact fun hb => (List.nodup_append.1 hnodup).2.2 b hb b (List.mem_singleton_self b) rfl
  obtain ⟨hargs, hshown⟩ := value_addValues_shown (p := p) hH.values hprev hm.size_values
    (.arg ⟨q.blocks.size⟩)
  have hmem : ∀ x, .op x ∈ h ++ .block b :: (p.block b).args.map .value ↔ .op x ∈ h := by
    intro x
    rw [← Entity.mem_ops, Entity.ops_append, hops, List.append_nil, Entity.mem_ops]
  have hmemb : ∀ c, .block c ∈ h ++ .block b :: (p.block b).args.map .value ↔
      .block c ∈ h ∨ c = b := by
    intro c
    rw [← Entity.mem_blocks, Entity.blocks_append, hblocks, List.mem_append, Entity.mem_blocks,
      List.mem_singleton]
  constructor
  case parents =>
    intro x hx
    rw [hmemb]
    exact Or.inl (hm.parents x ((hmem x).1 hx))
  case regions =>
    intro x hx c hc
    rw [hmemb]
    exact Or.inl (hm.regions x ((hmem x).1 hx) c hc)
  case used => exact fun x hx v hv => List.mem_append_left _ (hm.used x ((hmem x).1 hx) v hv)
  case size_ops => rw [ops_addBlock, hm.size_ops, Entity.ops_append, hops, List.append_nil]
  case size_values =>
    rw [size_values_addBlock, hm.size_values, Entity.values_append, hvalues, List.length_append,
      shown, List.length_map]
  case size_blocks =>
    rw [size_blocks_addBlock, hm.size_blocks, Entity.blocks_append, hblocks, List.length_append]
    rfl
  case op =>
    intro x hx
    rw [op_addBlock]
    exact hm.op x ((hmem x).1 hx)
  case value =>
    intro v hv
    rw [valueType, givenName?, value_addBlock]
    rw [← Entity.mem_values, Entity.values_append, hvalues, List.mem_append, Entity.mem_values] at hv
    rcases hv with hv | hv
    · rw [value_addValues_of_lt _ _ _ (hm.value_lt hh hv)]
      exact hm.value v hv
    · obtain ⟨place, hv⟩ := hshown v hv
      rw [hv]
      exact ⟨rfl, rfl⟩
  case block =>
    intro c hc
    rw [block_addBlock, Entity.ops_append, hops, List.append_nil]
    rcases (hmemb c).1 hc with hc | rfl
    · rw [if_neg (Nat.ne_of_lt (hm.block_lt hh hc))]
      exact hm.block c hc
    · rw [hnew, if_pos rfl, hargs]
      congr 1
      · refine (List.map_eq_nil_iff.2 (List.filter_eq_nil_iff.2 fun x hx => ?_)).symm
        have hne : (p.op x).parent ≠ c := fun heq =>
          hnot (heq ▸ hm.parents x (Entity.mem_ops.1 hx))
        simpa using hne
      · refine (Option.map_eq_none_iff.2 (List.find?_eq_none.2 fun x hx => ?_)).symm
        have hne : c ∉ (p.op x).regions := fun hc =>
          hnot (hm.regions x (Entity.mem_ops.1 (List.mem_reverse.1 hx)) c hc)
        simpa using hne
  case funcs => rw [funcs_addBlock, hm.funcs]

/-- The next function is added, with its body. -/
theorem Mirrors.addFunc (hm : p.Mirrors H h fs q) (hH : Distinct H) (f : Func)
    (hpre : h ++ .block f.body :: (p.block f.body).args.map .value <+: H) :
    p.Mirrors H (h ++ .block f.body :: (p.block f.body).args.map .value) (fs ++ [f])
      (q.addFunc f.name (p.shown (p.block f.body).args)).2 := by
  have hblock := hm.addBlock hH hpre
  have hnew := hm.next_block hH hpre
  obtain ⟨hparents, hregions, hused, hops, hvalues, hblocks, hop, hvalue, hblock, -⟩ := hblock
  refine ⟨hparents, hregions, hused, hops, hvalues, hblocks, hop, hvalue, hblock, ?_⟩
  rw [funcs_addFunc, hm.funcs, List.map_append, List.map_singleton, hnew]

end Program

end AsyncOrder
