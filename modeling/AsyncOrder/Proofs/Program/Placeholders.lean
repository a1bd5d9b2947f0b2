import AsyncOrder.Proofs.Program.Naming
import AsyncOrder.Proofs.Program.Stripping
import AsyncOrder.Proofs.Token.Lexing

/-!
# Placeholders

A value without name is shown as an underscore and its number.  Where no name that was given looks
like that, the names shown tell values apart as well as the names given, and mean the same.
-/

namespace AsyncOrder

/-- An underscore and digits. -/
def isPlaceholder (name : String) : Bool :=
  match name.toList with
  | '_' :: d :: ds => (d :: ds).all isDigit
  | _ => false

theorem toList_placeholder (i : Nat) : (s!"_{i}").toList = '_' :: Nat.toDigits 10 i := by
  show ("_" ++ Nat.repr i).toList = _
  rw [String.toList_append]
  exact congrArg ('_' :: ·) String.toList_ofList

theorem isPlaceholder_placeholder (i : Nat) : isPlaceholder s!"_{i}" = true := by
  obtain ⟨d, ds, hdigits, hd, hds⟩ := exists_toDigits i
  rw [isPlaceholder, toList_placeholder, hdigits]
  exact List.all_eq_true.2 (List.forall_mem_cons.2 ⟨hd, hds⟩)

theorem placeholder_inj {i j : Nat} (h : s!"_{i}" = s!"_{j}") : i = j := by
  have h := congrArg String.toList h
  rw [toList_placeholder, toList_placeholder] at h
  exact toDigits_inj (List.cons.inj h).2

theorem valid_placeholder (i : Nat) : (Token.value s!"_{i}").Valid := by
  obtain ⟨d, ds, hdigits, -, -⟩ := exists_toDigits i
  refine ⟨by rw [toList_placeholder]; exact List.cons_ne_nil _ _, fun c hc => ?_⟩
  rw [toList_placeholder, List.mem_cons] at hc
  rcases hc with rfl | hc
  · decide
  · rw [isWordChar, isDigit_toDigits hc, Bool.or_true]

namespace Program

/-- No name that was given is a placeholder. -/
def namedApart (p : Program) : Bool := p.values.toList.all fun v => !v.name.any isPlaceholder

/-- Every value is given the name that is shown for it. -/
def named (p : Program) : Program :=
  { p with values := p.values.mapIdx fun i v => { v with name := some (p.valueName ⟨i⟩) } }

variable {p : Program} {called : ValueId → Option String} {n : String} {v w : ValueId} {o : OpId}
variable {vs : List ValueId}

theorem valueName_of_some (h : p.givenName? v = some n) : p.valueName v = n := by
  rw [valueName, show (p.value v).name = some n from h]
  rfl

theorem valueName_of_none (h : p.givenName? v = none) : p.valueName v = s!"_{v.index}" := by
  rw [valueName, show (p.value v).name = none from h]
  rfl

section

variable (hp : p.namedApart = true)
include hp

theorem not_placeholder (h : p.givenName? v = some n) : isPlaceholder n = false := by
  rw [givenName?, value] at h
  cases hv : p.values[v.index]? with
  | none =>
    rw [hv] at h
    cases h
  | some a =>
    rw [hv] at h
    have h : a.name = some n := h
    obtain ⟨hlt, rfl⟩ := Array.getElem?_eq_some_iff.1 hv
    have hall := List.all_eq_true.1 hp _ (Array.getElem_mem_toList hlt)
    rw [h] at hall
    simpa using hall

omit hp in
/-- A name that is no placeholder is shown where it was given. -/
theorem valueName_eq_iff (hn : isPlaceholder n = false) :
    p.valueName v = n ↔ p.givenName? v = some n := by
  refine ⟨fun h => ?_, valueName_of_some⟩
  cases hv : p.givenName? v with
  | none =>
    rw [← h, valueName_of_none hv, isPlaceholder_placeholder] at hn
    cases hn
  | some m => rw [← h, valueName_of_some hv]

/-- Values that differ in the names they were given, or have none, are shown with other names. -/
theorem nodup_valueNames (hvs : vs.Nodup) (hnames : (vs.filterMap p.givenName?).Nodup) :
    (vs.map p.valueName).Nodup := by
  have hnames := List.pairwise_filterMap.1 hnames
  refine List.pairwise_map.2 ((hvs.and hnames).imp fun {v w} h heq => ?_)
  obtain ⟨hne, hgiven⟩ := h
  cases hw : p.givenName? w with
  | some n =>
    have hv := (valueName_eq_iff (not_placeholder hp hw)).1 (heq.trans (valueName_of_some hw))
    exact hgiven n hv n hw rfl
  | none =>
    cases hv : p.givenName? v with
    | some n =>
      have hw' := (valueName_eq_iff (not_placeholder hp hv)).1 (heq.symm.trans (valueName_of_some hv))
      rw [hw] at hw'
      cases hw'
    | none =>
      rw [valueName_of_none hv, valueName_of_none hw] at heq
      exact hne (congrArg ValueId.mk (placeholder_inj heq))

omit hp in
theorem Means.called_eq (h : p.Means called (fun _ _ _ => False) o n v) : called v = some n := by
  induction h with
  | inside hv => exact (mem_of_latest? hv).2
  | outer _ _ _ _ ih => exact ih
  | beyond _ hfalse => exact hfalse.elim

/-- Where a name that was given means a value, it does so among the names shown. -/
theorem Means.shown (h : p.Means p.givenName? (fun _ _ _ => False) o n v) :
    p.Means (fun v => some (p.valueName v)) (fun _ _ _ => False) o (p.valueName v) v := by
  have hv := h.called_eq
  have hn := not_placeholder hp hv
  have hlatest : ∀ o, latest? (fun v => some (p.valueName v)) n (p.before o) =
      latest? p.givenName? n (p.before o) := by
    intro o
    refine congrArg (List.find? · _) (funext fun w => decide_eq_decide.2 ?_)
    rw [Option.some.injEq]
    exact valueName_eq_iff hn
  rw [valueName_of_some hv]
  clear hv
  induction h with
  | inside hv => exact .inside ((hlatest _).trans hv)
  | outer hnone hz hkind _ ih => exact .outer ((hlatest _).trans hnone) hz hkind (ih hn hlatest)
  | beyond _ hfalse => exact hfalse.elim

end

/-! ## Giving every value a name -/

theorem value_named (hv : v.index < p.values.size) :
    p.named.value v = ⟨(p.value v).type, (p.value v).origin, some (p.valueName v)⟩ := by
  rw [value, value, named, Array.getElem?_mapIdx, Array.getElem?_eq_getElem hv]
  rfl

theorem valueName_named : p.named.valueName v = p.valueName v := by
  by_cases hv : v.index < p.values.size
  · exact valueName_of_some (congrArg Value.name (value_named hv))
  · rw [valueName, valueName, value, value, named, Array.getElem?_mapIdx,
      Array.getElem?_eq_none (Nat.le_of_not_lt hv)]
    rfl

theorem valueType_named : p.named.valueType v = p.valueType v := by
  by_cases hv : v.index < p.values.size
  · have htype := congrArg Value.type (value_named hv)
    exact htype
  · rw [valueType, valueType, value, value, named, Array.getElem?_mapIdx,
      Array.getElem?_eq_none (Nat.le_of_not_lt hv)]
    rfl

/-- Nothing else is shown. -/
theorem text_named : p.named.text = p.text :=
  text_congr (fun _ => rfl) rfl (funext fun _ => valueName_named) (funext fun _ => valueType_named) rfl rfl

end Program

end AsyncOrder
