import AsyncOrder.Proofs.Program.Naming
import Mathlib.Logic.Relation

/-!
# How programs are put together

Lowering adds blocks and operations in a fixed pattern.  A site is a block being filled, together
with the bodies that are ready for the operation to come; sites are kept innermost first:

    func     a function with an empty body, which becomes the only site
    body     an empty block, which becomes the innermost site
    op       an operation at the end of the innermost site; it takes the bodies that are ready
    close    the innermost site becomes a body for the site around it
    finish   the body of a function is left

What an operation uses is known at its site: an argument or a result of the block itself or,
unless a hierarchy body lies in between, of a block around it.  `Sound` gathers what every step
preserves.
-/

namespace AsyncOrder.Lowering

/-! ## Sites -/

structure Site where
  block : BlockId
  region : Region
  /-- The bodies that are ready, in order. -/
  bodies : List (Region × BlockId)

structure Construction where
  program : Program
  /-- Innermost first. -/
  sites : List Site

/-- What an operation at the innermost site may use. -/
def Known (p : Program) : List Site → ValueId → Prop
  | [], _ => False
  | s :: outer, v => v ∈ p.locals s.block ∨ s.region ≠ .hierarchy ∧ Known p outer v

/-- What a name means at the innermost site. -/
def Found (p : Program) : List Site → String → ValueId → Prop
  | [], _, _ => False
  | s :: outer, n, v => Program.latest? p.givenName? n (p.locals s.block) = some v ∨
      Program.latest? p.givenName? n (p.locals s.block) = none ∧ s.region ≠ .hierarchy ∧
        Found p outer n v

theorem Found.known {p : Program} {sites : List Site} {n : String} {v : ValueId}
    (h : Found p sites n v) : Known p sites v := by
  induction sites with
  | nil => exact h
  | cons s outer ih =>
    rcases h with hv | ⟨-, hr, hv⟩
    · exact Or.inl (Program.mem_of_latest? hv).1
    · exact Or.inr ⟨hr, ih hv⟩

/-- What the operations of an unowned block see from outside. -/
def Beyond (p : Program) : List Site → BlockId → ValueId → Prop
  | [], _, _ => False
  | s :: outer, b, v =>
    (b = s.block ∧ s.region ≠ .hierarchy ∧ Known p outer v) ∨
      (∃ r, (r, b) ∈ s.bodies ∧ r ≠ .hierarchy ∧ Known p (s :: outer) v) ∨ Beyond p outer b v

/-- The unowned blocks that a site accounts for; function bodies are accounted for apart. -/
def Site.roots (s : Site) : List (Region × BlockId) :=
  if s.region = .func then s.bodies else (s.region, s.block) :: s.bodies

/-- All unowned blocks. -/
def Construction.roots (c : Construction) : List (Region × BlockId) :=
  c.sites.flatMap Site.roots ++ c.program.funcs.map fun f => (.func, f.body)

/-! ## Bodies -/

/-- The bodies that an operation has. -/
def bodyRegions : OpKind → List Region
  | .compute => [.compute]
  | .loop _ => [.loop]
  | .branch => [.branch, .branch]
  | .hierarchy .. => [.hierarchy]
  | _ => []

/-- May an operation of this kind stand in a body? -/
def Stands (region : Region) : OpKind → Prop
  | .yield => region = .compute ∨ region = .loop ∨ region = .branch
  | .finish => region = .hierarchy
  | _ => True

/-- Every operation may stand where it does, and terminators come last. -/
structure Orderly (p : Program) (region : Region) (b : BlockId) : Prop where
  stands : ∀ o ∈ (p.block b).ops, Stands region (p.kind o)
  last : ∀ o ∈ (p.block b).ops, (p.kind o).isTerminator = true → p.terminator? b = some o

/-- A finished body. -/
def Complete (p : Program) (region : Region) (b : BlockId) : Prop :=
  Orderly p region b ∧ (p.terminator? b).isSome = true

/-! ## Steps -/

/-- An operation that the innermost site takes. -/
structure Fits (p : Program) (s : Site) (outer : List Site) (spec : OpSpec) : Prop where
  found : ∀ v ∈ spec.operands ++ spec.deps, ∃ n, Found p (s :: outer) n v
  /-- The results have names of their own. -/
  fresh : ((p.locals s.block).filterMap p.givenName? ++ spec.results.filterMap (·.1)).Nodup
  regions : spec.regions = s.bodies.map (·.2)
  bodies : bodyRegions spec.kind = s.bodies.map (·.1)
  stands : Stands s.region spec.kind
  unended : p.terminator? s.block = none
  layout : spec.kind.Layout (spec.operands.map p.valueType) (spec.deps.map p.valueType)
    (spec.results.map (·.2)) (spec.regions.map p.signature)

theorem Fits.known {p : Program} {s : Site} {outer : List Site} {spec : OpSpec}
    (h : Fits p s outer spec) : ∀ v ∈ spec.operands ++ spec.deps, Known p (s :: outer) v :=
  fun v hv => (h.found v hv).elim fun _ hn => hn.known

inductive Step : Construction → Construction → Prop
  | func (p : Program) (name : String) (args : List (Option String × ValueType))
      (hargs : (args.filterMap (·.1)).Nodup) :
    Step ⟨p, []⟩ ⟨(p.addFunc name args).2, [⟨(p.addFunc name args).1, .func, []⟩]⟩
  | body (p : Program) (s : Site) (outer : List Site) (region : Region)
      (args : List (Option String × ValueType)) (hargs : (args.filterMap (·.1)).Nodup)
      (hregion : region ≠ .func) :
    Step ⟨p, s :: outer⟩ ⟨(p.addBlock args).2, ⟨(p.addBlock args).1, region, []⟩ :: s :: outer⟩
  | op (p : Program) (s : Site) (outer : List Site) (spec : OpSpec) (hfits : Fits p s outer spec) :
    Step ⟨p, s :: outer⟩ ⟨(p.appendOp s.block spec).2, { s with bodies := [] } :: outer⟩
  | close (p : Program) (s t : Site) (outer : List Site) (hbodies : s.bodies = [])
      (hregion : s.region ≠ .func) (hended : (p.terminator? s.block).isSome = true) :
    Step ⟨p, s :: t :: outer⟩
      ⟨p, { t with bodies := t.bodies ++ [(s.region, s.block)] } :: outer⟩
  | finish (p : Program) (s : Site) (hbodies : s.bodies = []) (hregion : s.region = .func) :
    Step ⟨p, [s]⟩ ⟨p, []⟩

/-- Any number of steps. -/
abbrev Steps : Construction → Construction → Prop := Relation.ReflTransGen Step

/-! ## What steps preserve -/

structure Sound (c : Construction) : Prop where
  linked : c.program.Linked
  nodup_roots : (c.roots.map (·.2)).Nodup
  mem_roots : ∀ b, b ∈ c.roots.map (·.2) ↔
    b.index < c.program.blocks.size ∧ (c.program.block b).parentOp = none
  sites : ∀ s ∈ c.sites, s.region = .func → ∃ f ∈ c.program.funcs, f.body = s.block
  distinct : (c.sites.map (·.block)).Nodup
  orderly : ∀ e ∈ c.roots, Orderly c.program e.1 e.2
  ready : ∀ s ∈ c.sites, ∀ e ∈ s.bodies, (c.program.terminator? e.2).isSome = true
  complete : ∀ o, o.index < c.program.ops.size →
    List.Forall₂ (Complete c.program) (bodyRegions (c.program.kind o)) (c.program.op o).regions
  used : ∀ o, o.index < c.program.ops.size → ∀ v ∈ c.program.used o,
    v.index < c.program.values.size
  laidOut : ∀ o, o.index < c.program.ops.size → c.program.LaidOut o
  sees : ∀ o, o.index < c.program.ops.size → ∀ v ∈ c.program.used o,
    c.program.Sees (Beyond c.program c.sites) o v

theorem sound_empty : Sound ⟨.empty, []⟩ where
  linked := Program.linked_empty
  nodup_roots := List.nodup_nil
  mem_roots b := by simp [Construction.roots, Program.empty]
  sites s hs := absurd hs List.not_mem_nil
  distinct := List.nodup_nil
  orderly e he := absurd he List.not_mem_nil
  ready s hs := absurd hs List.not_mem_nil
  complete o ho := absurd ho (Nat.not_lt_zero _)
  used o ho := absurd ho (Nat.not_lt_zero _)
  laidOut o ho := absurd ho (Nat.not_lt_zero _)
  sees o ho := absurd ho (Nat.not_lt_zero _)

theorem mem_roots_of_mem_bodies {c : Construction} {s : Site} (hs : s ∈ c.sites)
    {e : Region × BlockId} (he : e ∈ s.bodies) : e ∈ c.roots := by
  refine List.mem_append_left _ (List.mem_flatMap.2 ⟨s, hs, ?_⟩)
  rw [Site.roots]
  split
  · exact he
  · exact List.mem_cons_of_mem _ he

theorem Sound.site_mem_roots {c : Construction} (hc : Sound c) {s : Site} (hs : s ∈ c.sites) :
    (s.region, s.block) ∈ c.roots := by
  by_cases hr : s.region = .func
  · obtain ⟨f, hf, hb⟩ := hc.sites s hs hr
    exact List.mem_append_right _ (List.mem_map.2 ⟨f, hf, by rw [hr, hb]⟩)
  · refine List.mem_append_left _ (List.mem_flatMap.2 ⟨s, hs, ?_⟩)
    rw [Site.roots, if_neg hr]
    exact List.mem_cons_self

theorem Sound.site_lt {c : Construction} (hc : Sound c) {s : Site} (hs : s ∈ c.sites) :
    s.block.index < c.program.blocks.size :=
  ((hc.mem_roots s.block).1 (List.mem_map.2 ⟨_, hc.site_mem_roots hs, rfl⟩)).1

/-! ## Growth -/

section Grows

variable {p q : Program} {sites : List Site} {b : BlockId} {v : ValueId}
variable (hp : p.Linked) (hq : q.Linked) (h : p.Grows q)
include hp hq h

theorem mem_locals_of_grows (hv : v ∈ p.locals b) : v ∈ q.locals b := by
  rcases List.mem_append.1 hv with hv | hv
  · have hb : b.index < p.blocks.size := by
      by_contra hle
      rw [Program.block_of_size_le (Nat.le_of_not_lt hle)] at hv
      exact List.not_mem_nil hv
    exact List.mem_append_left _ (h.args b hb ▸ hv)
  · obtain ⟨o, ho, hv⟩ := List.mem_flatMap.1 hv
    obtain ⟨hlt, hpar⟩ := (hp.mem_ops b o).1 ho
    refine List.mem_append_right _ (List.mem_flatMap.2 ⟨o, ?_, ?_⟩)
    · have := h.size_ops
      exact (hq.mem_ops b o).2 ⟨by omega, by rw [h.op o hlt, hpar]⟩
    · rwa [h.op o hlt]

theorem Known.grow (hk : Known p sites v) : Known q sites v := by
  induction sites with
  | nil => exact hk
  | cons s outer ih =>
    rcases hk with hv | ⟨hr, hk⟩
    · exact Or.inl (mem_locals_of_grows hp hq h hv)
    · exact Or.inr ⟨hr, ih hk⟩

omit hq in
theorem Found.grow {n : String} (hops : ∀ s ∈ sites, s.block.index < p.blocks.size ∧
    (q.block s.block).ops = (p.block s.block).ops) (hf : Found p sites n v) : Found q sites n v := by
  induction sites with
  | nil => exact hf
  | cons s outer ih =>
    rw [List.forall_mem_cons] at hops
    have hlatest : Program.latest? q.givenName? n (q.locals s.block) =
        Program.latest? p.givenName? n (p.locals s.block) := by
      rw [h.locals hp (h.args _ hops.1.1) hops.1.2]
      exact Program.latest?_congr fun v hv => h.givenName? (Program.lt_of_mem_locals hp hv)
    rw [Found, hlatest]
    exact hf.imp_right fun ⟨hnone, hr, hf⟩ => ⟨hnone, hr, ih hops.2 hf⟩

theorem Beyond.grow (hb : Beyond p sites b v) : Beyond q sites b v := by
  induction sites with
  | nil => exact hb
  | cons s outer ih =>
    rcases hb with ⟨rfl, hr, hk⟩ | ⟨r, hr, hne, hk⟩ | hb
    · exact Or.inl ⟨rfl, hr, hk.grow hp hq h⟩
    · exact Or.inr (Or.inl ⟨r, hr, hne, Known.grow hp hq h hk⟩)
    · exact Or.inr (Or.inr (ih hb))

omit hq in
theorem Orderly.grow {region : Region} (hops : (q.block b).ops = (p.block b).ops)
    (ho : Orderly p region b) : Orderly q region b := by
  constructor
  · intro o hmem
    rw [hops] at hmem
    rw [h.kind_eq (hp.size_of_mem_ops hmem)]
    exact ho.stands o hmem
  · intro o hmem hk
    rw [hops] at hmem
    rw [h.kind_eq (hp.size_of_mem_ops hmem)] at hk
    rw [h.terminator?_eq hp hops]
    exact ho.last o hmem hk

omit hq in
theorem Complete.grow {region : Region} (hops : (q.block b).ops = (p.block b).ops)
    (hc : Complete p region b) : Complete q region b :=
  ⟨hc.1.grow hp h hops, by rw [h.terminator?_eq hp hops]; exact hc.2⟩

end Grows

/-- What is sound about the operations that were there already. -/
structure StaysSound (p q : Program) (sites : List Site) (o : OpId) : Prop where
  complete : List.Forall₂ (Complete q) (bodyRegions (q.kind o)) (q.op o).regions
  used : ∀ v ∈ q.used o, v.index < q.values.size
  laidOut : q.LaidOut o
  sees : ∀ v ∈ q.used o, q.Sees (Beyond q sites) o v

theorem Sound.stays {c : Construction} (hc : Sound c) {q : Program} (hq : q.Linked)
    (h : c.program.Grows q) {sites : List Site}
    (hbeyond : ∀ o, o.index < c.program.ops.size → ∀ v,
      Beyond c.program c.sites (c.program.op o).parent v → q.Sees (Beyond q sites) o v)
    {o : OpId} (ho : o.index < c.program.ops.size) : StaysSound c.program q sites o := by
  have hused : q.used o = c.program.used o := by rw [Program.used, Program.used, h.op o ho]
  constructor
  · rw [h.kind_eq ho, h.op o ho]
    have hregions : ∀ b ∈ (c.program.op o).regions, (q.block b).ops = (c.program.block b).ops :=
      fun b hb => congrArg Block.ops (h.owned b o ((hc.linked.mem_regions o b).1 hb))
    have hall := hc.complete o ho
    generalize bodyRegions (c.program.kind o) = kinds at hall ⊢
    generalize (c.program.op o).regions = regions at hregions hall ⊢
    induction hall with
    | nil => exact .nil
    | @cons r b rs bs hrb _ ih =>
      rw [List.forall_mem_cons] at hregions
      exact .cons (hrb.grow hc.linked h hregions.1) (ih hregions.2)
  · intro v hv
    have := h.size_values
    have := hc.used o ho v (hused ▸ hv)
    omega
  · exact h.laidOut hc.linked hc.used ho (hc.laidOut o ho)
  · intro v hv
    exact (hc.sees o ho v (hused ▸ hv)).grow hc.linked hq h hbeyond ho

/-! ## Preservation -/

theorem orderly_of_nil {p : Program} {region : Region} {b : BlockId} (h : (p.block b).ops = []) :
    Orderly p region b := by
  constructor <;> (intro o ho; rw [h] at ho; exact absurd ho List.not_mem_nil)

/-- A new empty block, accounted for by the sites or as the body of a new function. -/
theorem Sound.fresh {c d : Construction} (hc : Sound c)
    (args : List (Option String × ValueType)) (region : Region) (hd : d.program.Linked)
    (hgrow : c.program.Grows d.program)
    (hops : d.program.ops.size = c.program.ops.size)
    (hsize : d.program.blocks.size = c.program.blocks.size + 1)
    (hblock : ∀ b, d.program.block b = (c.program.addBlock args).2.block b)
    (hroots : d.roots.Perm ((region, ⟨c.program.blocks.size⟩) :: c.roots))
    (hsites : ∀ s ∈ d.sites, s ∈ c.sites ∨ s = ⟨⟨c.program.blocks.size⟩, region, []⟩)
    (hfuncs : ∀ s ∈ d.sites, s.region = .func → ∃ f ∈ d.program.funcs, f.body = s.block)
    (hdistinct : (d.sites.map (·.block)).Nodup)
    (hbeyond : ∀ b v, Beyond c.program c.sites b v → Beyond d.program d.sites b v) : Sound d := by
  have hnew : (⟨c.program.blocks.size⟩ : BlockId) ∉ c.roots.map (·.2) := fun hm =>
    Nat.lt_irrefl _ ((hc.mem_roots _).1 hm).1
  have hold : ∀ o, o.index < d.program.ops.size → StaysSound c.program d.program d.sites o := by
    intro o ho
    rw [hops] at ho
    refine hc.stays hd hgrow (fun o ho v hv => .beyond ?_) ho
    rw [hgrow.op o ho]
    exact hbeyond _ v hv
  constructor
  case linked => exact hd
  case nodup_roots =>
    rw [(hroots.map _).nodup_iff]
    exact List.nodup_cons.2 ⟨hnew, hc.nodup_roots⟩
  case mem_roots =>
    intro b
    rw [(hroots.map _).mem_iff, List.map_cons, List.mem_cons, hc.mem_roots, hblock, hsize]
    obtain ⟨b⟩ := b
    simp only [Program.block_addBlock, BlockId.mk.injEq]
    by_cases hb : b = c.program.blocks.size
    · simp [hb]
    · rw [if_neg hb]
      constructor
      · rintro (hb' | hb')
        · exact absurd hb' hb
        · exact ⟨by omega, hb'.2⟩
      · intro hb'
        exact Or.inr ⟨by omega, hb'.2⟩
  case sites => exact hfuncs
  case distinct => exact hdistinct
  case orderly =>
    intro e he
    rw [hroots.mem_iff, List.mem_cons] at he
    rcases he with rfl | he
    · apply orderly_of_nil
      rw [hblock, Program.block_addBlock, if_pos rfl]
    · refine (hc.orderly e he).grow hc.linked hgrow ?_
      have := ((hc.mem_roots e.2).1 (List.mem_map_of_mem he)).1
      rw [hblock, Program.block_addBlock, if_neg (by omega)]
  case ready =>
    intro s hs e he
    rcases hsites s hs with hs | rfl
    · have hroot := mem_roots_of_mem_bodies hs he
      have := ((hc.mem_roots e.2).1 (List.mem_map_of_mem hroot)).1
      rw [hgrow.terminator?_eq hc.linked]
      · exact hc.ready s hs e he
      · rw [hblock, Program.block_addBlock, if_neg (by omega)]
    · exact absurd he List.not_mem_nil
  case complete => exact fun o ho => (hold o ho).complete
  case used => exact fun o ho => (hold o ho).used
  case laidOut => exact fun o ho => (hold o ho).laidOut
  case sees => exact fun o ho => (hold o ho).sees

theorem Sound.func {p : Program} (name : String) (args : List (Option String × ValueType))
    (h : Sound ⟨p, []⟩) :
    Sound ⟨(p.addFunc name args).2, [⟨(p.addFunc name args).1, .func, []⟩]⟩ := by
  refine h.fresh args .func (h.linked.addFunc name args)
    (Program.grows_addFunc name args) rfl (Program.size_blocks_addFunc p name args)
    (fun b => rfl) ?_ ?_ ?_ (List.nodup_singleton _) ?_
  · refine List.Perm.trans ?_ (List.perm_append_singleton _ _)
    simp [Construction.roots, Site.roots]
  · intro s hs
    exact Or.inr (List.mem_singleton.1 hs)
  · intro s hs _
    refine ⟨⟨name, ⟨p.blocks.size⟩⟩, ?_, ?_⟩
    · rw [Program.funcs_addFunc]
      exact List.mem_append_right _ (List.mem_singleton.2 rfl)
    · rw [List.mem_singleton.1 hs]
      rfl
  · exact fun b v hv => absurd hv id

theorem Sound.body {p : Program} {s : Site} {outer : List Site} {region : Region}
    (args : List (Option String × ValueType)) (hregion : region ≠ .func)
    (h : Sound ⟨p, s :: outer⟩) :
    Sound ⟨(p.addBlock args).2, ⟨(p.addBlock args).1, region, []⟩ :: s :: outer⟩ := by
  have hlinked := h.linked.addBlock args
  have hgrow := Program.grows_addBlock (p := p) args
  refine h.fresh args region hlinked hgrow rfl
    (Program.size_blocks_addBlock p args) (fun b => rfl) ?_ ?_ ?_ ?_ ?_
  · simp [Construction.roots, Site.roots, hregion]
  · intro t ht
    exact (List.mem_cons.1 ht).symm
  · intro t ht hr
    rcases List.mem_cons.1 ht with rfl | ht
    · exact absurd hr hregion
    · exact h.sites t ht hr
  · refine List.nodup_cons.2 ⟨fun hmem => ?_, h.distinct⟩
    obtain ⟨t, ht, heq⟩ := List.mem_map.1 hmem
    have hlt := h.site_lt ht
    rw [heq] at hlt
    exact Nat.lt_irrefl _ hlt
  · exact fun b v hv => Or.inr (Or.inr (hv.grow h.linked hlinked hgrow))

/-- Sites change and the program does not. -/
theorem Sound.move {p : Program} {sites sites' : List Site} (h : Sound ⟨p, sites⟩)
    (hroots : (⟨p, sites'⟩ : Construction).roots.Perm (⟨p, sites⟩ : Construction).roots)
    (hsites : ∀ s ∈ sites', s.region = .func → ∃ f ∈ p.funcs, f.body = s.block)
    (hdistinct : (sites'.map (·.block)).Sublist (sites.map (·.block)))
    (hready : ∀ s ∈ sites', ∀ e ∈ s.bodies, (p.terminator? e.2).isSome = true)
    (hbeyond : ∀ b v, Beyond p sites b v → Beyond p sites' b v) : Sound ⟨p, sites'⟩ where
  linked := h.linked
  nodup_roots := (hroots.map _).nodup_iff.2 h.nodup_roots
  mem_roots b := (hroots.map _).mem_iff.trans (h.mem_roots b)
  sites := hsites
  distinct := h.distinct.sublist hdistinct
  orderly e he := h.orderly e (hroots.mem_iff.1 he)
  ready := hready
  complete := h.complete
  used := h.used
  laidOut := h.laidOut
  sees o ho v hv := (h.sees o ho v hv).mono hbeyond

theorem Sound.close {p : Program} {s t : Site} {outer : List Site} (hbodies : s.bodies = [])
    (hregion : s.region ≠ .func) (hended : (p.terminator? s.block).isSome = true)
    (h : Sound ⟨p, s :: t :: outer⟩) :
    Sound ⟨p, { t with bodies := t.bodies ++ [(s.region, s.block)] } :: outer⟩ := by
  refine h.move ?_ ?_ (List.sublist_cons_self _ _) ?_ ?_
  · have hs : s.roots = [(s.region, s.block)] := by rw [Site.roots, if_neg hregion, hbodies]
    have ht : ({ t with bodies := t.bodies ++ [(s.region, s.block)] } : Site).roots =
        t.roots ++ [(s.region, s.block)] := by
      simp only [Site.roots]
      split <;> rfl
    simp only [Construction.roots, List.flatMap_cons, hs, ht, List.append_assoc]
    exact List.perm_middle
  · intro x hx
    rcases List.mem_cons.1 hx with rfl | hx
    · exact h.sites t (List.mem_cons_of_mem _ List.mem_cons_self)
    · exact h.sites x (List.mem_cons_of_mem _ (List.mem_cons_of_mem _ hx))
  · intro x hx e he
    rcases List.mem_cons.1 hx with rfl | hx
    · rcases List.mem_append.1 he with he | he
      · exact h.ready t (List.mem_cons_of_mem _ List.mem_cons_self) e he
      · rw [List.mem_singleton.1 he]
        exact hended
    · exact h.ready x (List.mem_cons_of_mem _ (List.mem_cons_of_mem _ hx)) e he
  · intro b v hv
    rcases hv with ⟨rfl, hr, hk⟩ | ⟨r, hr, -⟩ | ⟨rfl, hr, hk⟩ | ⟨r, hr, hne, hk⟩ | hv
    · exact Or.inr (Or.inl ⟨s.region, List.mem_append_right _ List.mem_cons_self, hr, hk⟩)
    · rw [hbodies] at hr
      exact absurd hr List.not_mem_nil
    · exact Or.inl ⟨rfl, hr, hk⟩
    · exact Or.inr (Or.inl ⟨r, List.mem_append_left _ hr, hne, hk⟩)
    · exact Or.inr (Or.inr hv)

theorem Sound.finish {p : Program} {s : Site} (hbodies : s.bodies = [])
    (hregion : s.region = .func) (h : Sound ⟨p, [s]⟩) : Sound ⟨p, []⟩ := by
  refine h.move ?_ ?_ (List.nil_sublist _) ?_ ?_
  · simp [Construction.roots, Site.roots, hbodies, hregion]
  · exact fun x hx => absurd hx List.not_mem_nil
  · exact fun x hx => absurd hx List.not_mem_nil
  · intro b v hv
    rcases hv with ⟨-, -, hk⟩ | ⟨r, hr, -⟩ | hv
    · exact hk
    · rw [hbodies] at hr
      exact absurd hr List.not_mem_nil
    · exact hv

/-! ## The operation step -/

theorem Known.lt {p : Program} (hp : p.Linked) {sites : List Site} {v : ValueId}
    (h : Known p sites v) : v.index < p.values.size := by
  induction sites with
  | nil => exact absurd h id
  | cons s outer ih =>
    rcases h with hv | ⟨-, hk⟩
    · rcases List.mem_append.1 hv with hv | hv
      · exact hp.arg_lt hv
      · obtain ⟨o, -, hv⟩ := List.mem_flatMap.1 hv
        exact hp.result_lt hv
    · exact ih hk

theorem isHierarchy_eq_false (kind : OpKind) (r : Region) (hr : r ∈ bodyRegions kind)
    (hne : r ≠ .hierarchy) : kind.isHierarchy = false := by
  cases kind <;> simp_all [bodyRegions, OpKind.isHierarchy]

/-- Taking the bodies leaves the other unowned blocks. -/
theorem roots_perm (p : Program) (s : Site) (outer : List Site) (spec : OpSpec) :
    (⟨p, s :: outer⟩ : Construction).roots.Perm (s.bodies ++
      (⟨(p.appendOp s.block spec).2, { s with bodies := [] } :: outer⟩ : Construction).roots) := by
  simp only [Construction.roots, List.flatMap_cons, Site.roots, Program.funcs_appendOp]
  split
  · simp
  · simp only [List.cons_append, List.nil_append, List.append_assoc]
    exact List.perm_middle.symm

section op

variable {p : Program} {s : Site} {outer : List Site} {spec : OpSpec}
variable (h : Sound ⟨p, s :: outer⟩) (hfits : Fits p s outer spec)
include h hfits

theorem Sound.ne_block {e : Region × BlockId} {t : Site} (ht : t ∈ s :: outer)
    (he : e ∈ t.bodies) : s.block ≠ e.2 := fun heq => by
  have := h.ready t ht e he
  rw [← heq, hfits.unended] at this
  exact Bool.noConfusion this

theorem Sound.free : p.Free s.block spec.regions := by
  have hsite := (h.mem_roots s.block).1
    (List.mem_map.2 ⟨_, h.site_mem_roots List.mem_cons_self, rfl⟩)
  have hbody : ∀ r ∈ spec.regions, r.index < p.blocks.size ∧ (p.block r).parentOp = none := by
    intro r hr
    rw [hfits.regions] at hr
    obtain ⟨e, he, rfl⟩ := List.mem_map.1 hr
    exact (h.mem_roots e.2).1 (List.mem_map_of_mem (mem_roots_of_mem_bodies List.mem_cons_self he))
  refine ⟨hsite.1, hsite.2, ?_, fun r hr => (hbody r hr).1, fun r hr => (hbody r hr).2, ?_⟩
  · have hnodup := (roots_perm p s outer spec).map (·.2) |>.nodup_iff.1 h.nodup_roots
    rw [List.map_append] at hnodup
    rw [hfits.regions]
    exact (List.nodup_append.1 hnodup).1
  · intro hr
    rw [hfits.regions] at hr
    obtain ⟨e, he, heq⟩ := List.mem_map.1 hr
    exact h.ne_block hfits List.mem_cons_self he heq.symm

/-- The new operation sees what was known at its site. -/
theorem Sound.sees_new {v : ValueId} (hk : Known p (s :: outer) v) :
    (p.appendOp s.block spec).2.Sees
      (Beyond (p.appendOp s.block spec).2 ({ s with bodies := [] } :: outer)) ⟨p.ops.size⟩ v := by
  have hfree := h.free hfits
  have hgrow := hfree.grows
  have hlinked := h.linked.appendOp hfree
  have hparent : ((p.appendOp s.block spec).2.op ⟨p.ops.size⟩).parent = s.block := by
    rw [Program.op_appendOp, if_pos rfl]
    rfl
  rcases hk with hv | ⟨hr, hk⟩
  · rcases List.mem_append.1 hv with hv | hv
    · refine .arg ?_
      rw [hparent, hgrow.args _ hfree.block_lt]
      exact hv
    · obtain ⟨z, hz, hv⟩ := List.mem_flatMap.1 hv
      obtain ⟨hzlt, hzpar⟩ := (h.linked.mem_ops s.block z).1 hz
      refine .result (z := z) ?_ (by rwa [hgrow.op z hzlt])
      rw [hlinked.isBefore_iff (Nat.lt_of_lt_of_le hzlt hgrow.size_ops) (by simp), hgrow.op z hzlt, hparent]
      exact ⟨hzpar, hzlt⟩
  · refine .beyond (Or.inl ⟨hparent, hr, hk.grow h.linked hlinked hgrow⟩)

/-- Operations in the bodies taken see through the new operation. -/
theorem Sound.sees_old {o : OpId} (ho : o.index < p.ops.size) {v : ValueId}
    (hv : Beyond p (s :: outer) (p.op o).parent v) :
    (p.appendOp s.block spec).2.Sees
      (Beyond (p.appendOp s.block spec).2 ({ s with bodies := [] } :: outer)) o v := by
  have hfree := h.free hfits
  have hgrow := hfree.grows
  have hlinked := h.linked.appendOp hfree
  have hparent : ((p.appendOp s.block spec).2.op o).parent = (p.op o).parent := by
    rw [hgrow.op o ho]
  rcases hv with ⟨hb, hr, hk⟩ | ⟨r, hr, hne, hk⟩ | hv
  · exact .beyond (Or.inl ⟨hparent.trans hb, hr, hk.grow h.linked hlinked hgrow⟩)
  · refine .outer (z := ⟨p.ops.size⟩) ?_ ?_ (h.sees_new hfits hk)
    · rw [Program.parentOp?, hparent, hfree.parentOp_appendOp_iff, hfits.regions]
      exact Or.inr ⟨List.mem_map.2 ⟨_, hr, rfl⟩, rfl⟩
    · rw [Program.kind, Program.op_appendOp, if_pos rfl]
      refine isHierarchy_eq_false spec.kind r ?_ hne
      rw [hfits.bodies]
      exact List.mem_map.2 ⟨_, hr, rfl⟩
  · exact .beyond (Or.inr (Or.inr (hparent ▸ hv.grow h.linked hlinked hgrow)))

theorem Sound.ops_body {e : Region × BlockId} (he : e ∈ s.bodies) :
    ((p.appendOp s.block spec).2.block e.2).ops = (p.block e.2).ops := by
  rw [(h.free hfits).block_appendOp, if_neg (h.ne_block hfits List.mem_cons_self he)]

/-- The bodies taken are what they were. -/
theorem Sound.signature_body {b : BlockId} (hb : b ∈ spec.regions) :
    (p.appendOp s.block spec).2.signature b = p.signature b := by
  have hfree := h.free hfits
  refine hfree.grows.signature_eq h.linked h.used (hfree.region_lt b hb) ?_
  rw [hfits.regions] at hb
  obtain ⟨e, he, rfl⟩ := List.mem_map.1 hb
  exact h.ops_body hfits he

theorem Sound.stays_new :
    StaysSound p (p.appendOp s.block spec).2 ({ s with bodies := [] } :: outer) ⟨p.ops.size⟩ := by
  have hfree := h.free hfits
  have hgrow := hfree.grows
  have hnew : (p.appendOp s.block spec).2.op ⟨p.ops.size⟩ = p.newOp s.block spec := by
    rw [Program.op_appendOp, if_pos rfl]
  have hkind : (p.appendOp s.block spec).2.kind ⟨p.ops.size⟩ = spec.kind := by
    rw [Program.kind, hnew]
    rfl
  have hused : (p.appendOp s.block spec).2.used ⟨p.ops.size⟩ = spec.operands ++ spec.deps := by
    rw [Program.used, hnew]
    rfl
  constructor
  case complete =>
    rw [hkind, hnew, show (p.newOp s.block spec).regions = spec.regions from rfl, hfits.bodies,
      hfits.regions, List.forall₂_map_left_iff, List.forall₂_map_right_iff, List.forall₂_same]
    intro e he
    have hroot := mem_roots_of_mem_bodies (c := ⟨p, s :: outer⟩) List.mem_cons_self he
    exact Complete.grow h.linked hgrow (h.ops_body hfits he)
      ⟨h.orderly e hroot, h.ready s List.mem_cons_self e he⟩
  case used =>
    intro v hv
    exact Nat.lt_of_lt_of_le ((hfits.known v (hused ▸ hv)).lt h.linked) hgrow.size_values
  case laidOut =>
    have hregions : spec.regions.map (p.appendOp s.block spec).2.signature =
        spec.regions.map p.signature :=
      List.map_congr_left fun b hb => h.signature_body hfits hb
    have hlt : ∀ v ∈ spec.operands ++ spec.deps, v.index < p.values.size := fun v hv =>
      (hfits.known v hv).lt h.linked
    rw [Program.LaidOut, hkind, hnew]
    simp only [Program.newOp]
    rw [hregions, hgrow.map_valueType fun v hv => hlt v (List.mem_append_left _ hv)]
    rw [hgrow.map_valueType fun v hv => hlt v (List.mem_append_right _ hv)]
    rw [Program.types_newResults]
    exact hfits.layout
  case sees => exact fun v hv => h.sees_new hfits (hfits.known v (hused ▸ hv))

/-- The site keeps its order when it takes an operation. -/
theorem Sound.orderly_site : Orderly (p.appendOp s.block spec).2 s.region s.block := by
  have hfree := h.free hfits
  have hgrow := hfree.grows
  have hold := h.orderly _ (h.site_mem_roots List.mem_cons_self)
  have hkind : (p.appendOp s.block spec).2.kind ⟨p.ops.size⟩ = spec.kind := by
    rw [Program.kind, Program.op_appendOp, if_pos rfl]
    rfl
  constructor
  · intro o ho
    rcases (hfree.mem_ops_appendOp_iff s.block o).1 ho with ho | ⟨-, rfl⟩
    · rw [hgrow.kind_eq (h.linked.size_of_mem_ops ho)]
      exact hold.stands o ho
    · rw [hkind]
      exact hfits.stands
  · intro o ho hterm
    rcases (hfree.mem_ops_appendOp_iff s.block o).1 ho with ho | ⟨-, rfl⟩
    · rw [hgrow.kind_eq (h.linked.size_of_mem_ops ho)] at hterm
      have := hold.last o ho hterm
      rw [hfits.unended] at this
      simp at this
    · rw [Program.terminator?, hfree.block_appendOp, if_pos rfl, List.getLast?_append]
      simp [hterm]

theorem Sound.op :
    Sound ⟨(p.appendOp s.block spec).2, { s with bodies := [] } :: outer⟩ := by
  have hfree := h.free hfits
  have hgrow := hfree.grows
  have hlinked := h.linked.appendOp hfree
  have hperm := (roots_perm p s outer spec).map (·.2)
  rw [List.map_append, ← hfits.regions] at hperm
  obtain ⟨-, hnodup, hdisj⟩ := List.nodup_append.1 (hperm.nodup_iff.1 h.nodup_roots)
  have hstays : ∀ o, o.index < (p.appendOp s.block spec).2.ops.size →
      StaysSound p (p.appendOp s.block spec).2 ({ s with bodies := [] } :: outer) o := by
    intro o ho
    rw [Program.size_ops_appendOp] at ho
    by_cases hlt : o.index < p.ops.size
    · exact h.stays hlinked hgrow (fun o ho v hv => h.sees_old hfits ho hv) hlt
    · obtain ⟨o⟩ := o
      obtain rfl : o = p.ops.size := by simp only at ho hlt; omega
      exact h.stays_new hfits
  have hsite : (s.region, s.block) ∈
      (⟨(p.appendOp s.block spec).2, { s with bodies := [] } :: outer⟩ : Construction).roots := by
    have hmem := (roots_perm p s outer spec).mem_iff.1 (h.site_mem_roots List.mem_cons_self)
    rcases List.mem_append.1 hmem with hm | hm
    · exact absurd rfl (h.ne_block hfits List.mem_cons_self hm)
    · exact hm
  constructor
  case linked => exact hlinked
  case nodup_roots => exact hnodup
  case mem_roots =>
    intro b
    have hold := h.mem_roots b
    rw [hperm.mem_iff, List.mem_append] at hold
    rw [Program.size_blocks_appendOp, hfree.block_appendOp]
    by_cases hb : b ∈ spec.regions
    · simp only [hb, if_true]
      exact ⟨fun hm => absurd rfl (hdisj b hb b hm), fun hm => by simp at hm⟩
    · simpa [hb] using hold
  case sites =>
    intro t ht hr
    rw [Program.funcs_appendOp]
    rcases List.mem_cons.1 ht with rfl | ht
    · exact h.sites s List.mem_cons_self hr
    · exact h.sites t (List.mem_cons_of_mem _ ht) hr
  case distinct => exact h.distinct
  case orderly =>
    intro e he
    by_cases hb : s.block = e.2
    · have := List.inj_on_of_nodup_map hnodup hsite he hb
      rw [← this]
      exact h.orderly_site hfits
    · have hroot := (roots_perm p s outer spec).mem_iff.2 (List.mem_append_right _ he)
      refine (h.orderly e hroot).grow h.linked hgrow ?_
      rw [hfree.block_appendOp, if_neg hb]
  case ready =>
    intro t ht e he
    rcases List.mem_cons.1 ht with rfl | ht
    · exact absurd he List.not_mem_nil
    · have ht := List.mem_cons_of_mem s ht
      rw [hgrow.terminator?_eq h.linked]
      · exact h.ready t ht e he
      · rw [hfree.block_appendOp, if_neg (h.ne_block hfits ht he)]
  case complete => exact fun o ho => (hstays o ho).complete
  case used => exact fun o ho => (hstays o ho).used
  case laidOut => exact fun o ho => (hstays o ho).laidOut
  case sees => exact fun o ho => (hstays o ho).sees

end op

/-! ## Runs -/

theorem Sound.step {c d : Construction} (hc : Sound c) (h : Step c d) : Sound d := by
  cases h with
  | func p name args _ => exact hc.func name args
  | body p s outer region args _ hregion => exact hc.body args hregion
  | op p s outer spec hfits => exact hc.op hfits
  | close p s t outer hbodies hregion hended => exact hc.close hbodies hregion hended
  | finish p s hbodies hregion => exact hc.finish hbodies hregion

theorem Sound.steps {c d : Construction} (hc : Sound c) (h : Steps c d) : Sound d := by
  induction h with
  | refl => exact hc
  | tail _ hstep ih => exact ih.step hstep

theorem Sound.grows {c d : Construction} (hc : Sound c) (h : Steps c d) :
    c.program.Grows d.program := by
  induction h with
  | refl => exact .refl _
  | @tail d e hsteps hstep ih =>
    refine ih.trans ?_
    have hd := hc.steps hsteps
    cases hstep with
    | func p name args _ => exact Program.grows_addFunc name args
    | body p s outer region args _ _ => exact Program.grows_addBlock args
    | op p s outer spec hfits => exact (hd.free hfits).grows
    | close => exact .refl _
    | finish => exact .refl _

end AsyncOrder.Lowering
