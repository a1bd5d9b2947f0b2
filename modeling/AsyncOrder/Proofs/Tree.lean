import AsyncOrder.Tree
import AsyncOrder.Proofs.Basic

/-!
# Elements of trees by path

`t.get? path` is the element at `path`.  A tree is known by its elements (`Tree.ext`), and the
maps over trees are known by what they do to each element:

    (mapWithPath f base t).get? path = (t.get? path).map (f (base ++ path))
-/

namespace AsyncOrder.Tree

variable {α β : Type} {t u : Tree α} {a b : α} {ts us : List (Tree α)} {path : Path} {i : Nat}

/-- The element at `path`. -/
def get? (t : Tree α) (path : Path) : Option α := (t.at? path).map root

@[simp]
theorem get?_nil : (node a ts).get? [] = some a := rfl

/-- The element at `path` in tree number `i`. -/
def getFrom? (ts : List (Tree α)) (i : Nat) (path : Path) : Option α :=
  ts[i]?.bind fun t => t.get? path

@[simp]
theorem get?_cons : (node a ts).get? (i :: path) = getFrom? ts i path := by
  rw [get?, at?, children, Option.map_bind]
  rfl

@[simp]
theorem getFrom?_cons_zero : getFrom? (t :: ts) 0 path = t.get? path := rfl

@[simp]
theorem getFrom?_cons_succ : getFrom? (t :: ts) (i + 1) path = getFrom? ts i path := rfl

theorem getFrom?_of_lt (hi : i < ts.length) : getFrom? ts i path = ts[i].get? path := by
  rw [getFrom?, List.getElem?_eq_getElem hi, Option.bind_some]

theorem at?_append (path path' : Path) :
    t.at? (path ++ path') = (t.at? path).bind fun u => u.at? path' := by
  induction path generalizing t with
  | nil => rfl
  | cons i path ih =>
    rw [List.cons_append, at?, at?, Option.bind_assoc]
    exact Option.bind_congr fun child _ => ih

theorem at?_trans {path path' : Path} {v : Tree α} (h : t.at? path = some u)
    (h' : u.at? path' = some v) : t.at? (path ++ path') = some v := by
  rw [at?_append, h, Option.bind_some, h']

theorem get?_of_at? (h : t.at? path = some (node a ts)) : t.get? path = some a := by
  rw [get?, h]
  rfl

theorem get?_child (h : t.at? path = some (node a ts)) : t.get? (path ++ [i]) = ts[i]?.map root := by
  rw [get?, at?_append, h, Option.bind_some, at?, children]
  cases ts[i]? <;> rfl

/-! ## Trees with the same elements -/

theorem length_le_of_getFrom? (h : ∀ i path, getFrom? ts i path = getFrom? us i path) :
    us.length ≤ ts.length := by
  by_contra hlt
  have hts : getFrom? ts ts.length [] = none := by
    rw [getFrom?, List.getElem?_eq_none (Nat.le_refl _)]
    rfl
  rw [h, getFrom?_of_lt (by omega)] at hts
  cases hu : us[ts.length] with
  | node a vs =>
    rw [hu] at hts
    simp at hts

/-- Trees with the same elements at all paths are the same. -/
theorem ext : ∀ {t u : Tree α}, (∀ path, t.get? path = u.get? path) → t = u
  | node a ts, node b us, h => by
    have hroot : a = b := by simpa using h []
    have hbelow : ∀ i path, getFrom? ts i path = getFrom? us i path := by
      intro i path
      simpa using h (i :: path)
    have hlen : ts.length = us.length := Nat.le_antisymm
      (length_le_of_getFrom? fun i path => (hbelow i path).symm) (length_le_of_getFrom? hbelow)
    have hchildren : ts = us := by
      refine List.ext_getElem hlen fun i hi hi' => ?_
      refine ext fun path => ?_
      rw [← getFrom?_of_lt hi, hbelow, getFrom?_of_lt hi']
    rw [hroot, hchildren]
termination_by t => sizeOf t
decreasing_by
  have := List.sizeOf_lt_of_mem (List.getElem_mem hi)
  simp only [node.sizeOf_spec]
  omega

/-! ## Lists of elements -/

theorem mem_entries_iff : ∀ {t : Tree α} {path : Path} {a : α},
    (path, a) ∈ t.entries ↔ t.get? path = some a
  | node r ts, path, a => by
    have hfrom : ∀ n (us : List (Tree α)), (∀ u ∈ us, u ∈ ts) →
        ((path, a) ∈ entriesFrom n us ↔ ∃ i path', path = (n + i) :: path' ∧
          getFrom? us i path' = some a) := by
      intro n us hus
      induction us generalizing n with
      | nil => simp [entriesFrom, getFrom?]
      | cons u us ih =>
        have hmem := hus u List.mem_cons_self
        rw [entriesFrom, List.mem_append, ih (n + 1) fun v hv => hus v (List.mem_cons_of_mem _ hv)]
        simp only [List.mem_map, Prod.mk.injEq, Prod.exists]
        constructor
        · rintro (⟨path', a', hin, rfl, rfl⟩ | ⟨i, path', rfl, hin⟩)
          · exact ⟨0, path', rfl, mem_entries_iff.1 hin⟩
          · exact ⟨i + 1, path', by rw [Nat.add_assoc, Nat.add_comm 1], hin⟩
        · rintro ⟨i, path', rfl, hin⟩
          cases i with
          | zero => exact Or.inl ⟨path', a, mem_entries_iff.2 hin, rfl, rfl⟩
          | succ i => exact Or.inr ⟨i, path', by rw [Nat.add_assoc, Nat.add_comm 1], hin⟩
    rw [entries, List.mem_cons, hfrom 0 ts fun u hu => hu]
    cases path with
    | nil => simp [eq_comm]
    | cons i path => simp
termination_by t => sizeOf t
decreasing_by
  all_goals
    have := List.sizeOf_lt_of_mem hmem
    simp only [node.sizeOf_spec]
    omega

theorem mem_toList_iff : a ∈ t.toList ↔ ∃ path, t.get? path = some a := by
  rw [toList, List.mem_map]
  constructor
  · rintro ⟨⟨path, b⟩, h, rfl⟩
    exact ⟨path, mem_entries_iff.1 h⟩
  · rintro ⟨path, h⟩
    exact ⟨(path, a), mem_entries_iff.2 h, rfl⟩

/-! ## Maps -/

theorem getElem?_mapAllWithPath (f : Path → α → β) (base : Path) (n i : Nat)
    (ts : List (Tree α)) : (mapAllWithPath f base n ts)[i]? =
      ts[i]?.map (mapWithPath f (base ++ [n + i])) := by
  induction ts generalizing n i with
  | nil => simp [mapAllWithPath]
  | cons t ts ih =>
    cases i with
    | zero => simp [mapAllWithPath]
    | succ i =>
      rw [mapAllWithPath, List.getElem?_cons_succ, ih, List.getElem?_cons_succ]
      congr 3
      rw [Nat.add_assoc, Nat.add_comm 1]

theorem length_mapAllWithPath (f : Path → α → β) (base : Path) (n : Nat) (ts : List (Tree α)) :
    (mapAllWithPath f base n ts).length = ts.length := by
  induction ts generalizing n with
  | nil => rfl
  | cons t ts ih => rw [mapAllWithPath, List.length_cons, ih, List.length_cons]

theorem at?_mapWithPath (f : Path → α → β) (t : Tree α) (base path : Path) :
    (t.mapWithPath f base).at? path = (t.at? path).map (mapWithPath f (base ++ path)) := by
  induction path generalizing t base with
  | nil =>
    rw [List.append_nil]
    rfl
  | cons i path ih =>
    obtain ⟨a, ts⟩ := t
    rw [mapWithPath, at?, children, getElem?_mapAllWithPath, at?, children, Nat.zero_add]
    cases ts[i]? with
    | none => rfl
    | some child =>
      rw [Option.map_some, Option.bind_some, Option.bind_some, ih, ← List.append_cons]

theorem root_mapWithPath (f : Path → α → β) (t : Tree α) (base : Path) :
    (t.mapWithPath f base).root = f base t.root := by
  cases t
  rfl

theorem get?_mapWithPath (f : Path → α → β) (t : Tree α) (base path : Path) :
    (t.mapWithPath f base).get? path = (t.get? path).map (f (base ++ path)) := by
  rw [get?, at?_mapWithPath, get?, Option.map_map, Option.map_map]
  congr 1
  funext u
  exact root_mapWithPath f u _

theorem entries_mapWithPath (f : Path → α → β) : ∀ (t : Tree α) (base : Path),
    (t.mapWithPath f base).entries = t.entries.map fun e => (e.1, f (base ++ e.1) e.2)
  | node a ts, base => by
    have hfrom : ∀ n (us : List (Tree α)), (∀ u ∈ us, u ∈ ts) →
        entriesFrom n (mapAllWithPath f base n us) =
          (entriesFrom n us).map fun e => (e.1, f (base ++ e.1) e.2) := by
      intro n us hus
      induction us generalizing n with
      | nil => rfl
      | cons u us ih =>
        have hmem := hus u List.mem_cons_self
        rw [mapAllWithPath, entriesFrom, entriesFrom, entries_mapWithPath f u,
          ih (n + 1) fun v hv => hus v (List.mem_cons_of_mem _ hv), List.map_append, List.map_map,
          List.map_map]
        simp only [Function.comp_def, List.append_assoc, List.singleton_append]
    rw [mapWithPath, entries, entries, hfrom 0 ts fun u hu => hu, List.map_cons, List.append_nil]
termination_by t => sizeOf t
decreasing_by
  have := List.sizeOf_lt_of_mem hmem
  simp only [node.sizeOf_spec]
  omega

/-- Where nothing fails, a map that may fail is a map. -/
theorem mapWithPathM_eq_ok {ε : Type} {f : Path → α → Except ε β} {g : Path → α → β} :
    ∀ {t : Tree α} {base : Path}, (∀ path a, t.get? path = some a →
      f (base ++ path) a = .ok (g (base ++ path) a)) →
    t.mapWithPathM f base = .ok (t.mapWithPath g base)
  | node a ts, base, h => by
    have hroot : f base a = .ok (g base a) := by simpa using h [] a rfl
    have hall : ∀ n (us : List (Tree α)), (∀ u ∈ us, u ∈ ts) → (∀ i path b,
        getFrom? us i path = some b → f (base ++ (n + i) :: path) b =
          .ok (g (base ++ (n + i) :: path) b)) →
        mapAllWithPathM f base n us = .ok (mapAllWithPath g base n us) := by
      intro n us hus hok
      induction us generalizing n with
      | nil => rfl
      | cons u us ih =>
        have hmem := hus u List.mem_cons_self
        have hfirst : u.mapWithPathM f (base ++ [n]) = .ok (u.mapWithPath g (base ++ [n])) := by
          refine mapWithPathM_eq_ok fun path b hb => ?_
          rw [← List.append_cons]
          exact hok 0 path b hb
        have hrest := ih (n + 1) (fun v hv => hus v (List.mem_cons_of_mem _ hv))
          fun i path b hb => by
            have := hok (i + 1) path b hb
            rwa [Nat.add_assoc, Nat.add_comm 1]
        rw [mapAllWithPathM, hfirst, mapAllWithPath]
        simp only [hrest]
        rfl
    rw [mapWithPathM, hroot, mapWithPath]
    have := hall 0 ts (fun u hu => hu) fun i path b hb => by
      rw [Nat.zero_add]
      exact h (i :: path) b (by rw [get?_cons]; exact hb)
    simp only [this]
    rfl
termination_by t => sizeOf t
decreasing_by
  have := List.sizeOf_lt_of_mem hmem
  simp only [node.sizeOf_spec]
  omega

/-- What a map that may fail has made of each element. -/
theorem get?_of_mapWithPathM {ε : Type} {f : Path → α → Except ε β} :
    ∀ {t : Tree α} {u : Tree β} {base : Path}, t.mapWithPathM f base = .ok u → ∀ path,
      Option.Rel (fun a b => f (base ++ path) a = .ok b) (t.get? path) (u.get? path)
  | node a ts, u, base, h => by
    rw [mapWithPathM] at h
    obtain ⟨b, hroot, h⟩ := exists_of_bind_eq_ok h
    obtain ⟨us, hall, hu⟩ := exists_of_bind_eq_ok h
    obtain rfl := Except.ok.inj hu
    have hbelow : ∀ n (vs : List (Tree α)) (us : List (Tree β)), (∀ v ∈ vs, v ∈ ts) →
        mapAllWithPathM f base n vs = .ok us → ∀ i path,
          Option.Rel (fun a b => f (base ++ (n + i) :: path) a = .ok b)
            (getFrom? vs i path) (getFrom? us i path) := by
      intro n vs us hvs hok
      induction vs generalizing n us with
      | nil =>
        obtain rfl := Except.ok.inj hok
        exact fun _ _ => .none
      | cons v vs ih =>
        have hmem := hvs v List.mem_cons_self
        rw [mapAllWithPathM] at hok
        obtain ⟨w, hfirst, hok⟩ := exists_of_bind_eq_ok hok
        obtain ⟨ws, hrest, hus⟩ := exists_of_bind_eq_ok hok
        obtain rfl := Except.ok.inj hus
        intro i path
        cases i with
        | zero =>
          have hget := get?_of_mapWithPathM hfirst path
          rwa [List.append_assoc] at hget
        | succ i =>
          have hget := ih (n + 1) ws (fun v hv => hvs v (List.mem_cons_of_mem _ hv)) hrest i path
          rwa [Nat.add_assoc, Nat.add_comm 1] at hget
    intro path
    cases path with
    | nil => exact .some (by rw [List.append_nil]; exact hroot)
    | cons i path =>
      have hget := hbelow 0 ts us (fun _ h => h) hall i path
      rwa [Nat.zero_add, ← get?_cons, ← get?_cons] at hget
termination_by t => sizeOf t
decreasing_by
  have := List.sizeOf_lt_of_mem hmem
  simp only [node.sizeOf_spec]
  omega

theorem ok_of_mapWithPathM {ε : Type} {f : Path → α → Except ε β} {u : Tree β} {base : Path}
    (h : t.mapWithPathM f base = .ok u) {x : Path × α} (hx : x ∈ t.entries) :
    ∃ b, f (base ++ x.1) x.2 = .ok b := by
  have hrel := get?_of_mapWithPathM h x.1
  rw [mem_entries_iff.1 hx] at hrel
  generalize u.get? x.1 = b at hrel
  cases hrel with
  | some hok => exact ⟨_, hok⟩

/-- The failure of a map that may fail is that of the first element for which it fails. -/
theorem exists_of_mapWithPathM_eq_error {ε : Type} {f : Path → α → Except ε β} {e : ε} :
    ∀ {t : Tree α} {base : Path}, t.mapWithPathM f base = .error e →
      ∃ before path a after, t.entries = before ++ (path, a) :: after ∧
        (∀ x ∈ before, ∃ b, f (base ++ x.1) x.2 = .ok b) ∧ f (base ++ path) a = .error e
  | node a ts, base, h => by
    rw [mapWithPathM] at h
    rcases error_of_bind_eq_error h with h | ⟨b, hroot, h⟩
    · exact ⟨[], [], a, _, rfl, by simp, by rwa [List.append_nil]⟩
    have hall : ∀ n (us : List (Tree α)), (∀ u ∈ us, u ∈ ts) →
        mapAllWithPathM f base n us = .error e →
        ∃ before path a after, entriesFrom n us = before ++ (path, a) :: after ∧
          (∀ x ∈ before, ∃ b, f (base ++ x.1) x.2 = .ok b) ∧ f (base ++ path) a = .error e := by
      intro n us hus hfail
      induction us generalizing n with
      | nil => cases hfail
      | cons u us ih =>
        have hmem := hus u List.mem_cons_self
        rw [mapAllWithPathM] at hfail
        rcases error_of_bind_eq_error hfail with hfirst | ⟨u', hfirst, hfail⟩
        · obtain ⟨before, path, a, after, hentries, hok, herr⟩ :=
            exists_of_mapWithPathM_eq_error hfirst
          refine ⟨before.map fun x => (n :: x.1, x.2), n :: path, a,
            (after.map fun x => (n :: x.1, x.2)) ++ entriesFrom (n + 1) us, ?_, fun x hx => ?_, ?_⟩
          · rw [entriesFrom, hentries, List.map_append, List.map_cons, List.append_assoc,
              List.cons_append]
          · obtain ⟨y, hy, rfl⟩ := List.mem_map.1 hx
            have := hok y hy
            rwa [List.append_assoc] at this
          · rwa [List.append_assoc] at herr
        · rcases error_of_bind_eq_error hfail with hrest | ⟨_, -, hfail⟩
          · obtain ⟨before, path, a, after, hentries, hok, herr⟩ :=
              ih (n + 1) (fun v hv => hus v (List.mem_cons_of_mem _ hv)) hrest
            refine ⟨(u.entries.map fun x => (n :: x.1, x.2)) ++ before, path, a, after, ?_,
              fun x hx => ?_, herr⟩
            · rw [entriesFrom, hentries, List.append_assoc]
            · rcases List.mem_append.1 hx with hx | hx
              · obtain ⟨⟨path', b'⟩, hy, rfl⟩ := List.mem_map.1 hx
                have := ok_of_mapWithPathM hfirst hy
                rwa [List.append_assoc] at this
              · exact hok x hx
          · cases hfail
    rcases error_of_bind_eq_error h with h | ⟨_, -, h⟩
    · obtain ⟨before, path, a', after, hentries, hok, herr⟩ := hall 0 ts (fun _ h => h) h
      refine ⟨([], a) :: before, path, a', after, ?_, fun x hx => ?_, herr⟩
      · rw [entries, hentries, List.cons_append]
      · rcases List.mem_cons.1 hx with rfl | hx
        · exact ⟨b, by rw [List.append_nil]; exact hroot⟩
        · exact hok x hx
    · cases h
termination_by t => sizeOf t
decreasing_by
  have := List.sizeOf_lt_of_mem hmem
  simp only [node.sizeOf_spec]
  omega

end AsyncOrder.Tree
