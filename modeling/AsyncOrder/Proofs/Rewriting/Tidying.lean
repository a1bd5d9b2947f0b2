import AsyncOrder.Proofs.Lowering.Reprinting
import AsyncOrder.Proofs.Pipeline.Scoped

/-!
# What is cleaned up is tidy

A scoped program has the blocks, values and names of the program it was, less some.  So it is tidy
if that was, and can be spelled if that could be.
-/

namespace AsyncOrder.Program

open Lowering (Orderly Complete)

variable {p q : Program} {o : OpId} {b : BlockId} {v : ValueId} {depth : Nat}

namespace Prunes

variable (h : p.Prunes q)
include h

theorem valueName (v : ValueId) : q.valueName v = p.valueName v := by
  have hname : (q.value v).name = (p.value v).name := h.givenName? v
  rw [Program.valueName, Program.valueName, hname]

theorem locals_sublist : (q.locals b).Sublist (p.locals b) := by
  refine (h.args_sublist b).append (((h.ops b).flatMap _).trans ?_)
  exact List.Sublist.flatMap_right _ fun o _ => h.results o ▸ List.Sublist.refl _

theorem blockHistory_sublist {inner inner' : OpId → List Entity}
    (hinner : ∀ o, (inner o).Sublist (inner' o)) :
    (q.blockHistory inner b).Sublist (p.blockHistory inner' b) := by
  refine List.Sublist.cons_cons _ (((h.args_sublist b).map _).append (((h.ops b).flatMap _).trans ?_))
  exact List.Sublist.flatMap_right _ fun o _ => hinner o

theorem opHistory_sublist : (q.opHistory depth o).Sublist (p.opHistory depth o) := by
  induction depth generalizing o with
  | zero => exact List.Sublist.refl _
  | succ depth ih =>
    rw [opHistory, opHistory, h.regions, h.results]
    refine List.Sublist.append (List.Sublist.flatMap_right _ fun b _ => ?_) (List.Sublist.refl _)
    exact h.blockHistory_sublist fun o => ih

/-- What is left has been created in the order it was. -/
theorem history_sublist : q.history.Sublist p.history := by
  rw [history, history, h.funcs, h.size_blocks]
  exact List.Sublist.flatMap_right _ fun f _ => h.blockHistory_sublist fun o => h.opHistory_sublist

theorem shallow {ops ops' : List OpId} (hops : ops'.Sublist ops) (hshallow : p.Shallow depth ops) :
    q.Shallow depth ops' := by
  induction depth generalizing ops ops' with
  | zero => exact List.sublist_nil.1 (hshallow ▸ hops)
  | succ depth ih => exact fun o ho => ih h.nested_sublist (hshallow o (hops.subset ho))

theorem orderly {region : Lowering.Region} (hp : p.Linked) (hb : Orderly p region b) :
    Orderly q region b where
  stands o ho := by
    rw [h.kind]
    exact hb.stands o ((h.ops b).subset ho)
  last o ho hterm := by
    rw [h.kind] at hterm
    have hlast := Option.eq_some_of_filter_eq_some (hb.last o ((h.ops b).subset ho) hterm)
    rw [terminator?, getLast?_of_sublist (h.ops b) (hp.nodup_ops b) hlast ho, Option.filter_some,
      h.kind, if_pos hterm]

end Prunes

theorem Spellable.prune (hp : p.Spellable) (h : p.Prunes q) : q.Spellable where
  names v := h.valueName v ▸ hp.names v
  ranks v := h.valueType v ▸ hp.ranks v
  numbers o := h.kind o ▸ hp.numbers o
  channels o := h.kind o ▸ hp.channels o
  funcs := h.funcs ▸ hp.funcs

theorem Tidy.prune (hp : p.Tidy) (hwell : p.WellFormed) (h : p.Scoped q) : q.Tidy := by
  have hlinked := hwell.linked
  have hprunes := h.prunes
  have howner : ∀ o, ∀ b ∈ (q.op o).regions, (q.block b).parentOp = some o := by
    intro o b hb
    rw [hprunes.owner]
    exact (hlinked.mem_regions o b).1 (hprunes.regions o ▸ hb)
  have hroot : ∀ f ∈ q.funcs, (q.block f.body).parentOp = none := by
    intro f hf
    rw [hprunes.owner]
    exact hp.root f (hprunes.funcs ▸ hf)
  have hlive : ∀ o, q.isLive o = true → p.isLive o = true := fun o ho => hlinked.isLive (hprunes.lt ho)
  have hops := hprunes.history_sublist.filterMap Entity.op?
  constructor
  case laidOut => exact h.laidOut
  case nested =>
    intro o ho z hz
    obtain ⟨b, hb, hz⟩ := List.mem_flatMap.1 hz
    refine hprunes.within b (fun y hy => ?_) z hz
    rw [howner o b hb] at hy
    exact Option.some.inj hy ▸ ho
  case bodies =>
    intro f hf o ho
    refine hprunes.within f.body (fun y hy => ?_) o ho
    rw [hroot f hf] at hy
    cases hy
  case shallow =>
    intro f hf
    rw [hprunes.size_blocks]
    exact hprunes.shallow (hprunes.ops f.body) (hp.shallow f (hprunes.funcs ▸ hf))
  case parent =>
    intro b o _ ho
    rw [hprunes.parent]
    exact hlinked.parent_of_mem_ops ((hprunes.ops b).subset ho)
  case owner => exact fun o _ => howner o
  case root => exact hroot
  case orderly => exact fun f hf => hprunes.orderly hlinked (hp.orderly f (hprunes.funcs ▸ hf))
  case complete =>
    intro o ho
    obtain ⟨hlength, hcomplete⟩ := List.forall₂_iff_zip.1 (hp.complete o (hlive o ho))
    rw [hprunes.kind, hprunes.regions]
    refine List.forall₂_iff_zip.2 ⟨hlength, fun {region b} hmem => ?_⟩
    obtain ⟨y, hy, -⟩ := hprunes.terminator?_eq hwell ho (List.of_mem_zip hmem).2
    exact ⟨hprunes.orderly hlinked (hcomplete hmem).1, by rw [hy]; rfl⟩
  case ascending => exact hp.ascending.sublist hops
  case sorted => exact fun b => (hp.sorted b).sublist (hprunes.ops b)
  case distinct =>
    exact ⟨hp.distinct.ops.sublist hops,
      hp.distinct.values.sublist (hprunes.history_sublist.filterMap _),
      hp.distinct.blocks.sublist (hprunes.history_sublist.filterMap _)⟩
  case ranks => exact fun v => hprunes.valueType v ▸ hp.ranks v
  case names =>
    intro b
    rw [funext hprunes.valueName]
    exact (hp.names b).sublist (hprunes.locals_sublist.map _)

end AsyncOrder.Program
