import AsyncOrder.Proofs.Graph.Stack
import AsyncOrder.Proofs.Program.Placeholders
import AsyncOrder.Proofs.Tree
import AsyncOrder.Scope.Basic

/-!
# Enumerating a tree

A stack of subtrees with their paths, from which the top is taken and on which its children are
put backwards, meets every subtree once, each with the path that leads to it, and in ascending
order of the paths: a node before what is below it, and children from left to right.

    Turns (fun _ => true) pushChildren (start [([], t)]) ⟨[], t.subtrees⟩    (Tree.turns_subtrees)
    (path, u) ∈ t.subtrees ↔ t.at? path = some u                             (Tree.mem_subtrees_iff)
    (t.entries.map (·.1)).Pairwise (· < ·)                        (Tree.pairwise_entries)

The name of a scope says of what kind it is and where:

    kind.nameAt path = kind'.nameAt path' → kind = kind' ∧ path = path'      (ScopeKind.nameAt_inj)
-/

namespace AsyncOrder

open Traversal

/-! ## Subtrees -/

namespace Tree

variable {α : Type} {t u : Tree α} {path : Path}

/-- The children of a subtree, with their paths. -/
def offspring (e : Path × Tree α) : List (Path × Tree α) :=
  e.2.children.zipIdx.map fun (u, i) => (e.1 ++ [i], u)

/-- The children are pushed one by one, the last one first. -/
def pushChildren (stack : List (Path × Tree α)) (e : Path × Tree α) : List (Path × Tree α) :=
  e.2.children.zipIdx.reverse.foldl (fun stack (u, i) => stack ++ [(e.1 ++ [i], u)]) stack

theorem pushChildren_eq (stack : List (Path × Tree α)) (e : Path × Tree α) :
    pushChildren stack e = stack ++ (offspring e).reverse := by
  unfold pushChildren offspring
  generalize e.2.children.zipIdx = us
  rw [← List.map_reverse]
  induction us.reverse generalizing stack with
  | nil => simp
  | cons u us ih => simp [ih]

mutual

/-- All subtrees with their paths; the tree itself is at `base`. -/
def subtreesAt (base : Path) : Tree α → List (Path × Tree α)
  | node a ts => (base, node a ts) :: subtreesFrom base 0 ts

/-- The subtrees of the children of the node at `base`, from number `i` on. -/
def subtreesFrom (base : Path) (i : Nat) : List (Tree α) → List (Path × Tree α)
  | [] => []
  | t :: ts => subtreesAt (base ++ [i]) t ++ subtreesFrom base (i + 1) ts

end

/-- All subtrees with their paths. -/
def subtrees (t : Tree α) : List (Path × Tree α) := t.subtreesAt []

theorem preorder_subtreesAt : ∀ (t : Tree α) (base : Path),
    Preorder (fun _ => true) offspring [(base, t)] (t.subtreesAt base)
  | node a ts, base => by
    have hfrom : ∀ n (us : List (Tree α)), (∀ u ∈ us, u ∈ ts) →
        Preorder (fun _ => true) offspring ((us.zipIdx n).map fun (u, i) => (base ++ [i], u))
          (subtreesFrom base n us) := by
      intro n us hus
      induction us generalizing n with
      | nil => exact .nil
      | cons u us ih =>
        have hmem := hus u List.mem_cons_self
        have hrest := ih (n + 1) fun v hv => hus v (List.mem_cons_of_mem _ hv)
        have hfirst := preorder_subtreesAt u (base ++ [n])
        exact hfirst.append hrest
    have hchildren := hfrom 0 ts fun u hu => hu
    have hout : (node a ts).subtreesAt base =
        (base, node a ts) :: subtreesFrom base 0 ts ++ [] := by
      rw [subtreesAt, List.append_nil]
    rw [hout]
    exact .keep rfl hchildren .nil
termination_by t => sizeOf t
decreasing_by
  have := List.sizeOf_lt_of_mem hmem
  simp only [node.sizeOf_spec]
  omega

theorem turns_subtrees (t : Tree α) :
    Turns (fun _ => true) pushChildren (start [([], t)]) ⟨[], t.subtrees⟩ :=
  (preorder_subtreesAt t []).turns_start pushChildren_eq

theorem map_subtreesAt : ∀ (t : Tree α) (base : Path),
    (t.subtreesAt base).map (fun e => (e.1, e.2.root)) = t.entries.map fun e => (base ++ e.1, e.2)
  | node a ts, base => by
    have hfrom : ∀ n (us : List (Tree α)), (∀ u ∈ us, u ∈ ts) →
        (subtreesFrom base n us).map (fun e => (e.1, e.2.root)) =
          (entriesFrom n us).map fun e => (base ++ e.1, e.2) := by
      intro n us hus
      induction us generalizing n with
      | nil => rfl
      | cons u us ih =>
        have hmem := hus u List.mem_cons_self
        rw [subtreesFrom, List.map_append, map_subtreesAt u (base ++ [n]), entriesFrom,
          List.map_append, ih (n + 1) fun v hv => hus v (List.mem_cons_of_mem _ hv), List.map_map]
        simp only [Function.comp_def, List.append_assoc, List.singleton_append]
    rw [subtreesAt, entries, List.map_cons, List.map_cons, hfrom 0 ts fun u hu => hu,
      List.append_nil]
    rfl
termination_by t => sizeOf t
decreasing_by
  have := List.sizeOf_lt_of_mem hmem
  simp only [node.sizeOf_spec]
  omega

theorem map_subtrees (t : Tree α) : t.subtrees.map (fun e => (e.1, e.2.root)) = t.entries := by
  rw [subtrees, map_subtreesAt]
  simp

theorem at?_of_mem_subtreesAt : ∀ {t : Tree α} {base path : Path} {u : Tree α},
    (path, u) ∈ t.subtreesAt base → ∃ path', path = base ++ path' ∧ t.at? path' = some u
  | node a ts, base, path, u, h => by
    have hfrom : ∀ n (us : List (Tree α)), (∀ v ∈ us, v ∈ ts) →
        (path, u) ∈ subtreesFrom base n us →
          ∃ i path', path = base ++ (n + i) :: path' ∧ (us[i]?.bind (·.at? path')) = some u := by
      intro n us hus hin
      induction us generalizing n with
      | nil => simp [subtreesFrom] at hin
      | cons v us ih =>
        have hmem := hus v List.mem_cons_self
        rw [subtreesFrom, List.mem_append] at hin
        rcases hin with hin | hin
        · obtain ⟨path', rfl, hat⟩ := at?_of_mem_subtreesAt hin
          exact ⟨0, path', by simp, hat⟩
        · obtain ⟨i, path', rfl, hat⟩ :=
            ih (n + 1) (fun w hw => hus w (List.mem_cons_of_mem _ hw)) hin
          exact ⟨i + 1, path', by rw [Nat.add_assoc, Nat.add_comm 1], hat⟩
    rw [subtreesAt, List.mem_cons] at h
    rcases h with h | h
    · obtain ⟨rfl, rfl⟩ := Prod.mk.inj h
      exact ⟨[], by simp, rfl⟩
    · obtain ⟨i, path', rfl, hat⟩ := hfrom 0 ts (fun v hv => hv) h
      exact ⟨i :: path', by rw [Nat.zero_add], hat⟩
termination_by t => sizeOf t
decreasing_by
  have := List.sizeOf_lt_of_mem hmem
  simp only [node.sizeOf_spec]
  omega

/-- The path of a subtree leads to it. -/
theorem mem_subtrees_iff : (path, u) ∈ t.subtrees ↔ t.at? path = some u := by
  have hat : ∀ {v : Tree α}, (path, v) ∈ t.subtrees → t.at? path = some v := by
    intro v hv
    obtain ⟨path', rfl, hat⟩ := at?_of_mem_subtreesAt hv
    exact hat
  constructor
  · exact hat
  · intro h
    have hentry : (path, u.root) ∈ t.entries := mem_entries_iff.2 (by rw [get?, h]; rfl)
    rw [← map_subtrees] at hentry
    obtain ⟨⟨path', v⟩, hv, he⟩ := List.mem_map.1 hentry
    obtain rfl := (Prod.mk.inj he).1
    have := hat hv
    rw [h] at this
    rwa [Option.some.inj this]

/-! ## Paths -/

theorem pairwise_entries : ∀ t : Tree α, (t.entries.map (·.1)).Pairwise (· < ·)
  | node a ts => by
    have hstart : ∀ n (us : List (Tree α)), ∀ e ∈ entriesFrom n us,
        ∃ i path, n ≤ i ∧ e.1 = i :: path := by
      intro n us e he
      induction us generalizing n with
      | nil => simp [entriesFrom] at he
      | cons u us ih =>
        rw [entriesFrom, List.mem_append] at he
        rcases he with he | he
        · obtain ⟨e', -, rfl⟩ := List.mem_map.1 he
          exact ⟨n, _, Nat.le_refl n, rfl⟩
        · obtain ⟨i, path, hi, hpath⟩ := ih (n + 1) he
          exact ⟨i, path, by omega, hpath⟩
    have hfrom : ∀ n (us : List (Tree α)), (∀ u ∈ us, u ∈ ts) →
        ((entriesFrom n us).map (·.1)).Pairwise (· < ·) := by
      intro n us hus
      induction us generalizing n with
      | nil => exact .nil
      | cons u us ih =>
        have hmem := hus u List.mem_cons_self
        rw [entriesFrom, List.map_append, List.pairwise_append]
        refine ⟨?_, ih (n + 1) fun v hv => hus v (List.mem_cons_of_mem _ hv), ?_⟩
        · have hu := List.pairwise_map.1 (pairwise_entries u)
          rw [List.map_map, List.pairwise_map]
          exact hu.imp fun h => List.Lex.cons h
        · intro path hpath path' hpath'
          obtain ⟨_, he, rfl⟩ := List.mem_map.1 hpath
          obtain ⟨e, -, rfl⟩ := List.mem_map.1 he
          obtain ⟨e', he', rfl⟩ := List.mem_map.1 hpath'
          obtain ⟨i, path', hi, hp⟩ := hstart (n + 1) us e' he'
          rw [hp]
          exact List.Lex.rel (by omega)
    rw [entries, List.map_cons, List.pairwise_cons]
    refine ⟨fun path hpath => ?_, hfrom 0 ts fun u hu => hu⟩
    obtain ⟨e, he, rfl⟩ := List.mem_map.1 hpath
    obtain ⟨i, path, -, hp⟩ := hstart 0 ts e he
    rw [hp]
    exact List.Lex.nil
termination_by t => sizeOf t
decreasing_by
  have := List.sizeOf_lt_of_mem hmem
  simp only [node.sizeOf_spec]
  omega

theorem nodup_paths (t : Tree α) : (t.entries.map (·.1)).Nodup :=
  t.pairwise_entries.imp fun {a b} (h : a < b) (heq : a = b) => List.lt_irrefl b (heq ▸ h)

end Tree

/-! ## Names -/

namespace ScopeKind

theorem toList_nameAt (kind : ScopeKind) (path : Path) : (kind.nameAt path).toList =
    kind.text.toList ++ if path = [] then [] else
      '_' :: ['.'].intercalate (path.map fun i => Nat.toDigits 10 (i + 1)) := by
  cases path with
  | nil => simp [nameAt]
  | cons i path =>
    rw [nameAt]
    simp [String.toList_intercalate, Function.comp_def]

/-- The kind of a scope is what stands before the first underscore of its name. -/
theorem takeWhile_nameAt (kind : ScopeKind) (path : Path) :
    (kind.nameAt path).toList.takeWhile (· ≠ '_') = kind.text.toList := by
  have htext : kind.text.toList.all (· ≠ '_') = true := by
    rcases kind with _ | _ | _ | _ <;> decide +kernel
  rw [toList_nameAt, List.takeWhile_append_of_pos (List.all_eq_true.1 htext)]
  split <;> simp

theorem text_inj {kind kind' : ScopeKind} (h : kind.text = kind'.text) : kind = kind' := by
  have hfound : ofText? kind.text = some kind := by rcases kind with _ | _ | _ | _ <;> rfl
  have hfound' : ofText? kind'.text = some kind' := by
    rcases kind' with _ | _ | _ | _ <;> rfl
  rw [h, hfound'] at hfound
  exact (Option.some.inj hfound).symm

/-- Numbers in decimal, with dots between them, can be told from one another. -/
theorem dotted_inj {path path' : Path}
    (h : ['.'].intercalate (path.map fun i => Nat.toDigits 10 (i + 1)) =
      ['.'].intercalate (path'.map fun i => Nat.toDigits 10 (i + 1)))
    (hpath : path ≠ []) (hpath' : path' ≠ []) : path = path' := by
  have hdots : ∀ path : Path, ∀ digits ∈ path.map fun i => Nat.toDigits 10 (i + 1),
      '.' ∉ digits := by
    intro path digits hdigits hdot
    obtain ⟨i, -, rfl⟩ := List.mem_map.1 hdigits
    exact absurd (isDigit_toDigits hdot) (by decide)
  have hsplit := congrArg (List.splitOn '.') h
  rw [List.splitOn_intercalate, List.splitOn_intercalate] at hsplit
  · exact List.map_injective_iff.2 (fun i j hij => Nat.succ.inj (toDigits_inj hij)) hsplit
  · simpa using hdots path'
  · simpa using hpath'
  · simpa using hdots path
  · simpa using hpath

/-- The name of a scope says of what kind it is and where. -/
theorem nameAt_inj {kind kind' : ScopeKind} {path path' : Path}
    (h : kind.nameAt path = kind'.nameAt path') : kind = kind' ∧ path = path' := by
  have htext : kind.text.toList = kind'.text.toList := by
    rw [← takeWhile_nameAt kind path, h, takeWhile_nameAt]
  obtain rfl := text_inj (String.toList_inj.1 htext)
  have h := congrArg String.toList h
  rw [toList_nameAt, toList_nameAt] at h
  have h := List.append_cancel_left h
  refine ⟨rfl, ?_⟩
  by_cases hpath : path = [] <;> by_cases hpath' : path' = []
  · exact hpath.trans hpath'.symm
  · simp [hpath, hpath'] at h
  · simp [hpath, hpath'] at h
  · rw [if_neg hpath, if_neg hpath'] at h
    exact dotted_inj (List.cons.inj h).2 hpath hpath'

theorem nameAt_ne_graph (kind : ScopeKind) (path : Path) : kind.nameAt path ≠ "graph" := by
  intro h
  have h := congrArg String.toList h
  rw [toList_nameAt] at h
  rcases kind with _ | _ | _ | _ <;> simp [text, Level.text] at h

end ScopeKind

end AsyncOrder
