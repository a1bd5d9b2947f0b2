import AsyncOrder.Proofs.Lowering.Accepting
import AsyncOrder.Proofs.Lowering.WellFormed

/-!
# What loops carry and what they yield

An accepted loop has results, carried arguments and initial values of the same types, and ends in
a yield.  Of the types that are yielded nothing is asked, unlike in the branches of an `if`:

    p.LoopYields o ts ys    the loop `o` carries values of types `ts` and yields some of types `ys`

So loops yield what they carry in those accepted texts that are typed under `Carry.same`, and in
no others (`loops_yield_carried_iff`).
-/

namespace AsyncOrder

open Lowering

namespace Program

structure LoopYields (p : Program) (o : OpId) (ts ys : List ValueType) : Prop where
  inits : ((p.op o).operands.drop 3).map p.valueType = ts
  results : (p.op o).results.map p.valueType = ts
  body : ∃ b y, p.body? o = some b ∧ (p.block b).args.tail.map p.valueType = ts ∧
    p.terminator? b = some y ∧ p.kind y = .yield ∧ (p.op y).operands.map p.valueType = ys

variable {p : Program} {o : OpId} {ts ys : List ValueType}

theorem WellFormed.loopYields (hp : p.WellFormed) (ho : o.index < p.ops.size)
    (hloop : (p.kind o).isLoop = true) : ∃ b, (p.op o).regions = [b] ∧
      p.LoopYields o ((p.op o).results.map p.valueType) (p.signature b).yields := by
  obtain ⟨y, hy, -, hkind⟩ := hp.loopYield?_eq_some ho hloop
  have hregions : bodyRegions (p.kind o) = [.loop] := by
    cases hk : p.kind o <;> simp_all [bodyRegions, OpKind.isLoop]
  obtain ⟨b, hb, hbody, -⟩ := hp.regions_eq_singleton ho hregions
  rw [loopYield?, hbody, Option.bind_some] at hy
  have hshape := (hp.laidOut o ho).2.2
  cases hk : p.kind o with
  | loop kind =>
    rw [hk, hb] at hshape
    obtain ⟨_, ⟨⟩, hoperands, hargs⟩ := hshape
    refine ⟨b, hb, ?_, rfl, b, y, hbody, ?_, hy, hkind, ?_⟩
    · rw [List.map_drop, hoperands]
      rfl
    · rw [List.map_tail]
      exact congrArg List.tail hargs
    · rw [signature, hy]
      rfl
  | _ => simp [hk, OpKind.isLoop] at hloop

/-- What a loop carries and yields is determined. -/
theorem WellFormed.yieldsBy_iff (hp : p.WellFormed) {carry : Source.Carry}
    (ho : o.index < p.ops.size) (hloop : (p.kind o).isLoop = true) :
    p.YieldsBy carry o ↔ ∃ ts ys, p.LoopYields o ts ys ∧ carry ts ys := by
  obtain ⟨b, hb, hyields⟩ := hp.loopYields ho hloop
  rw [YieldsBy, hb, imp_iff_right hloop, List.forall_mem_singleton]
  constructor
  · exact fun h => ⟨_, _, hyields, h⟩
  · rintro ⟨ts, ys, hyields', h⟩
    obtain ⟨c, y, hbody, -, hy, -, hys⟩ := hyields'.body
    rw [body?, hb] at hbody
    obtain rfl := Option.some.inj hbody
    have hsame : (p.signature b).yields = ys := by
      rw [signature, hy]
      exact hys
    rwa [hyields'.results, hsame]

end Program

theorem loops_yield_carried_iff {source : String} {p : Program}
    (hsource : readProgram source = .ok p) :
    ∃ m, Source.parse source = ⟨some m, []⟩ ∧
      (∀ o, o.index < p.ops.size → (p.kind o).isLoop = true → ∃ ts ys, p.LoopYields o ts ys) ∧
      (m.Typed .same ↔
        ∀ o, o.index < p.ops.size → (p.kind o).isLoop = true → ∃ ts, p.LoopYields o ts ts) := by
  have hp := wellFormed_of_readProgram hsource
  obtain ⟨m, hparse, herrors, rfl⟩ := parse_of_readProgram hsource
  refine ⟨m, hparse, fun o ho hloop => ?_, ?_⟩
  · obtain ⟨b, -, h⟩ := hp.loopYields ho hloop
    exact ⟨_, _, h⟩
  · rw [typed_iff, and_iff_right herrors]
    constructor
    · intro h o ho hloop
      obtain ⟨ts, ys, hyields, hsame⟩ := (hp.yieldsBy_iff ho hloop).1 (h o (Nat.zero_le _) ho)
      obtain rfl : ys = ts := hsame
      exact ⟨ys, hyields⟩
    · intro h o _ ho hloop
      obtain ⟨ts, hyields⟩ := h o ho hloop
      exact (hp.yieldsBy_iff ho hloop).2 ⟨ts, ts, hyields, rfl⟩ hloop

/-- A loop that hands its token on. -/
def handingLoop : String := "func @f(%n: index) \x7b
  %x = join
  %l = for %i = %n to %n step %n iter(%k = %x) \x7b
    %j = join [%k]
    yield %j
  \x7d
\x7d
"

theorem loops_yield_carried_iff_handingLoop : ∃ p m, readProgram handingLoop = .ok p ∧
    Source.parse handingLoop = ⟨some m, []⟩ ∧ m.Typed .same ∧
    p.LoopYields ⟨3⟩ [.token] [.token] := by
  obtain ⟨p, hsource, htest⟩ := accepts_iff.1 (show accepts handingLoop (fun p =>
    decide ((List.range p.ops.size).filter (fun i => (p.kind ⟨i⟩).isLoop) = [3]) &&
      decide ((p.op ⟨3⟩).results.map p.valueType = [.token]) &&
      decide ((p.loopYield? ⟨3⟩).map (fun y => (p.op y).operands.map p.valueType) =
        some [.token])) = true by decide +kernel)
  simp only [Bool.and_eq_true, decide_eq_true_eq] at htest
  obtain ⟨⟨hfilter, hresults⟩, hyield⟩ := htest
  have hloops : ∀ i, i < p.ops.size ∧ (p.kind ⟨i⟩).isLoop = true ↔ i = 3 := by
    intro i
    have hmem : i ∈ (List.range p.ops.size).filter (fun i => (p.kind ⟨i⟩).isLoop) ↔ i = 3 := by
      rw [hfilter, List.mem_singleton]
    rwa [List.mem_filter, List.mem_range] at hmem
  obtain ⟨m, hparse, hall, hiff⟩ := loops_yield_carried_iff hsource
  have hyields : p.LoopYields ⟨3⟩ [.token] [.token] := by
    obtain ⟨hlt, hloop⟩ := (hloops 3).2 rfl
    obtain ⟨ts, ys, h⟩ := hall ⟨3⟩ hlt hloop
    obtain rfl : [.token] = ts := hresults.symm.trans h.results
    obtain ⟨b, y, hbody, -, hy, -, hys⟩ := h.body
    rw [Program.loopYield?, hbody, Option.bind_some, hy, Option.map_some, hys] at hyield
    exact Option.some.inj hyield ▸ h
  refine ⟨p, m, hsource, hparse, hiff.2 ?_, hyields⟩
  rintro ⟨i⟩ ho hloop
  obtain rfl := (hloops i).1 ⟨ho, hloop⟩
  exact ⟨[.token], hyields⟩

/-- A loop that carries a token and yields nothing. -/
def droppingLoop : String := "func @f(%n: index) \x7b
  %x = join
  %l = for %i = %n to %n step %n iter(%k = %x) \x7b
    yield
  \x7d
  %z = join [%l]
\x7d
"

/-- What the closing yield hands over is not compared with what the loop carries. -/
theorem not_loops_yield_carried : ¬ ∀ (source : String) (p : Program),
    readProgram source = .ok p → ∀ o, o.index < p.ops.size → (p.kind o).isLoop = true →
      ∃ ts, p.LoopYields o ts ts := by
  intro h
  obtain ⟨p, hsource, htest⟩ := accepts_iff.1 (show accepts droppingLoop (fun p =>
    decide (2 < p.ops.size) && (p.kind ⟨2⟩).isLoop && decide ((p.op ⟨2⟩).results.length = 1) &&
      decide ((p.loopYield? ⟨2⟩).map (fun y => (p.op y).operands) = some [])) = true by
        decide +kernel)
  simp only [Bool.and_eq_true, decide_eq_true_eq] at htest
  obtain ⟨⟨⟨hlt, hloop⟩, hresults⟩, hyield⟩ := htest
  obtain ⟨ts, hyields⟩ := h droppingLoop p hsource ⟨2⟩ hlt hloop
  obtain ⟨b, y, hbody, -, hy, -, hys⟩ := hyields.body
  rw [Program.loopYield?, hbody, Option.bind_some, hy, Option.map_some] at hyield
  have hlength : ts.length = 1 := by rw [← hyields.results, List.length_map, hresults]
  rw [← hys, Option.some.inj hyield] at hlength
  exact Nat.zero_ne_one hlength

end AsyncOrder
