import AsyncOrder.Proofs.Basic
import AsyncOrder.Proofs.Token.Lexing
import AsyncOrder.Scope.Drawing

/-!
# Reading drawings

What the lines of a drawing say: a line may declare a node with its attributes, or an edge from
node to node.  All other lines (blank ones, comments, attributes of the whole drawing or of a
cluster, defaults for nodes and edges, braces) say nothing here:

    name [attributes];                      declares a node
    name -> name;                           an edge without attributes
    name -> name [attributes];              an edge

Reading is by the line, so no line may have a line break in it (`ReadAs.statements`).  Names of
nodes tell scope and vertex:

    nodeName i v = nodeName j w → i = j ∧ v = w                                  (nodeName_inj)
-/

namespace AsyncOrder

inductive Statement where
  | node (name attributes : String)
  | edge (source target attributes : String)
deriving DecidableEq, Repr

namespace Statement

/-- The node that is declared, or where the edge begins. -/
def first : Statement → String
  | node name _ => name
  | edge source _ _ => source

/-- The statement declares the node. -/
def declares (name : String) : Statement → Bool
  | node n _ => n = name
  | edge _ _ _ => false

/-- The attributes of an edge. -/
def style? : Statement → Option String
  | node _ _ => none
  | edge _ _ attributes => some attributes

/-! ## Reading -/

/-- Words that name no node. -/
def reserved : List String := ["", "strict", "graph", "digraph", "subgraph", "node", "edge"]

/-- What stands in brackets, if nothing follows but a semicolon. -/
def attributes? : List Char → Option String
  | ' ' :: '[' :: cs =>
    match cs.reverse with
    | ';' :: ']' :: cs => some (String.ofList cs.reverse)
    | _ => none
  | _ => none

/-- The word in front, if it names a node. -/
def name? (cs : List Char) : Option String :=
  let word := String.ofList (cs.takeWhile isWordChar)
  if word ∈ reserved then none else some word

/-- An edge from `source` to what is named next. -/
def edge? (source : String) (cs : List Char) : Option Statement :=
  (name? cs).bind fun target =>
    match cs.dropWhile isWordChar with
    | [';'] => some (edge source target "")
    | cs => (attributes? cs).map (edge source target)

/-- What a line says. -/
def ofLine? (line : List Char) : Option Statement :=
  let cs := line.dropWhile (· = ' ')
  (name? cs).bind fun name =>
    match cs.dropWhile isWordChar with
    | ' ' :: '-' :: '>' :: ' ' :: cs => edge? name cs
    | cs => (attributes? cs).map (node name)

end Statement

/-- The statements of a drawing, in order. -/
def statements (text : String) : List Statement :=
  (text.toList.splitOn '\n').filterMap Statement.ofLine?

/-- A string that is no more than one line. -/
def OneLine (s : String) : Prop := '\n' ∉ s.toList

/-! ## Lists of parts -/

section

variable {α β γ : Type} {l : List α} {b : β}

theorem mem_flatten_mapIdx {f : Nat → α → List β} :
    b ∈ (l.mapIdx f).flatten ↔ ∃ i a, l[i]? = some a ∧ b ∈ f i a := by
  simp only [List.mem_flatten, List.mem_mapIdx]
  constructor
  · rintro ⟨_, ⟨i, hi, rfl⟩, hb⟩
    exact ⟨i, l[i], List.getElem?_eq_getElem hi, hb⟩
  · rintro ⟨i, a, ha, hb⟩
    obtain ⟨hi, rfl⟩ := List.getElem?_eq_some_iff.1 ha
    exact ⟨_, ⟨i, hi, rfl⟩, hb⟩

/-- Parts without repetition that tell their places. -/
theorem nodup_flatten_mapIdx {f : Nat → α → List β}
    (hnodup : ∀ i a, l[i]? = some a → (f i a).Nodup)
    (happart : ∀ i j a a' b, b ∈ f i a → b ∈ f j a' → i = j) : (l.mapIdx f).flatten.Nodup := by
  rw [List.nodup_flatten]
  refine ⟨fun part hpart => ?_, List.pairwise_iff_getElem.2 fun i j hi hj hij => ?_⟩
  · obtain ⟨i, hi, rfl⟩ := List.mem_mapIdx.1 hpart
    exact hnodup i _ (List.getElem?_eq_getElem hi)
  · rw [List.getElem_mapIdx, List.getElem_mapIdx]
    exact fun b hb hb' => Nat.ne_of_lt hij (happart i j _ _ b hb hb')

theorem filter_eq_singleton {f : α → Bool} {a : α} (hl : l.Nodup) (ha : a ∈ l) (hf : f a = true)
    (h : ∀ b ∈ l, f b = true → b = a) : l.filter f = [a] := by
  refine List.perm_singleton.1 ((List.perm_ext_iff_of_nodup (hl.filter f)
    (List.nodup_singleton a)).2 fun b => ?_)
  rw [List.mem_filter, List.mem_singleton]
  exact ⟨fun hb => h b hb.1 hb.2, fun hb => hb ▸ ⟨ha, hf⟩⟩

theorem filterMap_flatten_mapIdx {f : Nat → α → List β} {f' : Nat → α → List γ} {g : β → Option γ}
    (h : ∀ i a, l[i]? = some a → (f i a).filterMap g = f' i a) :
    (l.mapIdx f).flatten.filterMap g = (l.mapIdx f').flatten := by
  rw [List.filterMap_flatten]
  congr 1
  refine List.ext_getElem? fun i => ?_
  rw [List.getElem?_map, List.getElem?_mapIdx, List.getElem?_mapIdx]
  cases ha : l[i]? with
  | none => rfl
  | some a => exact congrArg some (h i a ha)

end

/-! ## Lines -/

variable {s s' line : String} {lines lines' : List String} {said said' : List Statement}
variable {st : Statement} {i j v w : Nat}

@[simp]
theorem oneLine_append : OneLine (s ++ s') ↔ OneLine s ∧ OneLine s' := by
  rw [OneLine, String.toList_append, List.mem_append, not_or]
  rfl

/-- None of the lines has a line break in it, and this is what they say. -/
structure ReadAs (lines : List String) (said : List Statement) : Prop where
  oneLine : ∀ line ∈ lines, OneLine line
  eq : lines.filterMap (fun line => Statement.ofLine? line.toList) = said

namespace ReadAs

/-- Lines that are put together are read one by one. -/
theorem statements (h : ReadAs lines said) : statements (unlines lines) = said := by
  rw [← h.eq]
  have hlines := h.oneLine
  clear h
  induction lines with
  | nil => rfl
  | cons line lines ih =>
    rw [List.forall_mem_cons] at hlines
    have htext : (unlines (line :: lines)).toList =
        line.toList ++ '\n' :: (unlines lines).toList := by
      simp [unlines, String.toList_join]
    rw [AsyncOrder.statements, htext, List.splitOn_append_cons_self_of_not_mem hlines.1,
      List.filterMap_cons, List.filterMap_cons, ← ih hlines.2]
    rfl

theorem nil : ReadAs [] [] := ⟨by simp, rfl⟩

theorem append (h : ReadAs lines said) (h' : ReadAs lines' said') :
    ReadAs (lines ++ lines') (said ++ said') :=
  ⟨List.forall_mem_append.2 ⟨h.oneLine, h'.oneLine⟩, by rw [List.filterMap_append, h.eq, h'.eq]⟩

/-- A line that says nothing. -/
theorem skip (hline : OneLine line) (h : Statement.ofLine? line.toList = none) :
    ReadAs [line] [] :=
  ⟨by simpa using hline, by simp [h]⟩

theorem single (hline : OneLine line) (h : Statement.ofLine? line.toList = some st) :
    ReadAs [line] [st] :=
  ⟨by simpa using hline, by simp [h]⟩

section

variable {α : Type} {l : List α}

theorem flatten_mapIdx {f : Nat → α → List String} {g : Nat → α → List Statement}
    (h : ∀ i a, l[i]? = some a → ReadAs (f i a) (g i a)) :
    ReadAs (l.mapIdx f).flatten (l.mapIdx g).flatten := by
  refine ⟨fun line hline => ?_, filterMap_flatten_mapIdx fun i a ha => (h i a ha).eq⟩
  obtain ⟨i, a, ha, hline⟩ := mem_flatten_mapIdx.1 hline
  exact (h i a ha).oneLine line hline

theorem flatMap {f : α → List String} {g : α → List Statement}
    (h : ∀ a ∈ l, ReadAs (f a) (g a)) : ReadAs (l.flatMap f) (l.flatMap g) := by
  induction l with
  | nil => exact nil
  | cons a l ih =>
    rw [List.flatMap_cons, List.flatMap_cons]
    exact (h a List.mem_cons_self).append (ih fun x hx => h x (List.mem_cons_of_mem _ hx))

theorem map {f : α → String} {g : α → Statement} (h : ∀ a ∈ l, ReadAs [f a] [g a]) :
    ReadAs (l.map f) (l.map g) := by
  rw [List.map_eq_flatMap, List.map_eq_flatMap]
  exact flatMap h

theorem mapIdx {f : Nat → α → String} {g : Nat → α → Statement}
    (h : ∀ i a, l[i]? = some a → ReadAs [f i a] [g i a]) : ReadAs (l.mapIdx f) (l.mapIdx g) := by
  rw [List.mapIdx_eq_zipIdx_map, List.mapIdx_eq_zipIdx_map]
  exact map fun e he => h e.2 e.1 (List.mem_zipIdx_iff_getElem?.1 he)

end

end ReadAs

namespace Statement

variable {pad rest : List Char} {a b name attributes : String} {c : Char}

/-- A word that can name a node. -/
structure IsName (name : String) : Prop where
  word : ∀ c ∈ name.toList, isWordChar c = true
  free : name ∉ reserved

theorem IsName.ne_nil (h : IsName name) : name.toList ≠ [] := by
  intro hnil
  have hempty : name = "" := String.toList_inj.1 hnil
  exact h.free (hempty ▸ List.mem_cons_self)

theorem IsName.name? (h : IsName name) (hc : isWordChar c = false) :
    Statement.name? (name.toList ++ c :: rest) = some name := by
  have hword : (name.toList ++ c :: rest).takeWhile isWordChar = name.toList := by
    rw [List.takeWhile_append_of_pos h.word, List.takeWhile_cons_of_neg (by simp [hc]),
      List.append_nil]
  rw [Statement.name?, hword, String.ofList_toList]
  exact if_neg h.free

theorem IsName.dropWhile (h : IsName name) (hc : isWordChar c = false) :
    (name.toList ++ c :: rest).dropWhile isWordChar = c :: rest := by
  rw [List.dropWhile_append_of_pos h.word, List.dropWhile_cons_of_neg (by simp [hc])]

/-- Spaces in front do not count. -/
theorem IsName.dropWhile_pad (h : IsName name) (hpad : ∀ c ∈ pad, c = ' ') :
    (pad ++ (name.toList ++ rest)).dropWhile (· = ' ') = name.toList ++ rest := by
  obtain ⟨c, cs, hcs⟩ := List.exists_cons_of_ne_nil h.ne_nil
  have hc : c ≠ ' ' := by
    rintro rfl
    exact absurd (h.word ' ' (hcs ▸ List.mem_cons_self)) (by decide)
  rw [List.dropWhile_append_of_pos fun c hc => decide_eq_true (hpad c hc), hcs, List.cons_append,
    List.dropWhile_cons_of_neg (by simpa using hc)]

theorem attributes?_eq (attributes : String) :
    attributes? (' ' :: '[' :: (attributes.toList ++ [']', ';'])) = some attributes := by
  simp [attributes?]

section

variable (hpad : ∀ c ∈ pad, c = ' ') (ha : IsName a)
include hpad ha

theorem ofLine?_node :
    ofLine? (pad ++ (a.toList ++ ' ' :: '[' :: (attributes.toList ++ [']', ';']))) =
      some (node a attributes) := by
  have hspace : isWordChar ' ' = false := by decide
  rw [ofLine?, ha.dropWhile_pad hpad, ha.name? hspace, ha.dropWhile hspace]
  exact congrArg (Option.map _) (attributes?_eq attributes)

variable (hb : IsName b)
include hb

theorem ofLine?_edge :
    ofLine? (pad ++ (a.toList ++ ' ' :: '-' :: '>' :: ' ' :: (b.toList ++ [';']))) =
      some (edge a b "") := by
  have hspace : isWordChar ' ' = false := by decide
  have hend : isWordChar ';' = false := by decide
  rw [ofLine?, ha.dropWhile_pad hpad, ha.name? hspace, ha.dropWhile hspace]
  show edge? a (b.toList ++ [';']) = _
  rw [edge?, hb.name? hend, hb.dropWhile hend]
  rfl

theorem ofLine?_edge_attributes :
    ofLine? (pad ++ (a.toList ++ ' ' :: '-' :: '>' :: ' ' ::
      (b.toList ++ ' ' :: '[' :: (attributes.toList ++ [']', ';'])))) =
      some (edge a b attributes) := by
  have hspace : isWordChar ' ' = false := by decide
  rw [ofLine?, ha.dropWhile_pad hpad, ha.name? hspace, ha.dropWhile hspace]
  show edge? a (b.toList ++ ' ' :: '[' :: (attributes.toList ++ [']', ';'])) = _
  rw [edge?, hb.name? hspace, hb.dropWhile hspace]
  exact congrArg (Option.map _) (attributes?_eq attributes)

end

theorem IsName.oneLine (h : IsName name) : OneLine name := fun hmem =>
  absurd (h.word _ hmem) (by decide)

end Statement

/-! ## Lines of nodes and edges -/

section

open Statement

variable {a b attributes : String} (ha : IsName a)
include ha

theorem readAs_node (hattributes : OneLine attributes) :
    ReadAs [s!"        {a} [{attributes}];"] [.node a attributes] := by
  have htext : (s!"        {a} [{attributes}];").toList =
      List.replicate 8 ' ' ++ (a.toList ++ ' ' :: '[' :: (attributes.toList ++ [']', ';'])) := by
    show ("        " ++ a ++ " [" ++ attributes ++ "];").toList = _
    simp
  refine .single ?_ (htext ▸ ofLine?_node (fun c => List.eq_of_mem_replicate) ha)
  rw [OneLine, htext]
  simpa using ⟨ha.oneLine, hattributes⟩

variable (hb : IsName b)
include hb

theorem readAs_edge : ReadAs [s!"        {a} -> {b};"] [.edge a b ""] := by
  have htext : (s!"        {a} -> {b};").toList =
      List.replicate 8 ' ' ++ (a.toList ++ ' ' :: '-' :: '>' :: ' ' :: (b.toList ++ [';'])) := by
    show ("        " ++ a ++ " -> " ++ b ++ ";").toList = _
    simp
  refine .single ?_ (htext ▸ ofLine?_edge (fun c => List.eq_of_mem_replicate) ha hb)
  rw [OneLine, htext]
  simpa using ⟨ha.oneLine, hb.oneLine⟩

theorem readAs_edge_attributes (hattributes : OneLine attributes)
    (htext : line.toList = ("    " ++ a ++ " -> " ++ b ++ " [" ++ attributes ++ "];").toList) :
    ReadAs [line] [.edge a b attributes] := by
  have htext : line.toList = List.replicate 4 ' ' ++ (a.toList ++ ' ' :: '-' :: '>' :: ' ' ::
      (b.toList ++ ' ' :: '[' :: (attributes.toList ++ [']', ';']))) := by
    rw [htext]
    simp
  refine .single ?_ (htext ▸ ofLine?_edge_attributes (fun c => List.eq_of_mem_replicate) ha hb)
  rw [OneLine, htext]
  simpa using ⟨ha.oneLine, hb.oneLine, hattributes⟩

end

/-! ## Names of nodes -/

theorem toList_nodeName (i v : Nat) :
    (nodeName i v).toList = 's' :: Nat.toDigits 10 i ++ '_' :: 'n' :: Nat.toDigits 10 v := by
  show ("s" ++ Nat.repr i ++ "_n" ++ Nat.repr v).toList = _
  simp

theorem isName_nodeName (i v : Nat) : Statement.IsName (nodeName i v) := by
  constructor
  · intro c hc
    simp only [toList_nodeName, List.mem_append, List.mem_cons] at hc
    rcases hc with (rfl | hc) | rfl | rfl | hc
    · decide
    · rw [isWordChar, isDigit_toDigits hc, Bool.or_true]
    · decide
    · decide
    · rw [isWordChar, isDigit_toDigits hc, Bool.or_true]
  · intro hmem
    have hall : (Statement.reserved.all fun word => '_' ∉ word.toList) = true := by decide +kernel
    refine absurd ?_ (of_decide_eq_true (List.all_eq_true.1 hall _ hmem))
    simp [toList_nodeName]

/-- The name of a node tells of which scope it is and which vertex. -/
theorem nodeName_inj (h : nodeName i v = nodeName j w) : i = j ∧ v = w := by
  have hsplit : ∀ i v, (nodeName i v).toList.splitOn '_' =
      ['s' :: Nat.toDigits 10 i, 'n' :: Nat.toDigits 10 v] := by
    have hdigits : ∀ n, '_' ∉ Nat.toDigits 10 n := fun n hmem =>
      absurd (isDigit_toDigits hmem) (by decide)
    intro i v
    rw [toList_nodeName, List.splitOn_append_cons_self_of_not_mem (by simp [hdigits]),
      List.splitOn_eq_singleton (by simp [hdigits])]
  have h := congrArg (fun name => name.toList.splitOn '_') h
  simp only [hsplit, List.cons.injEq, true_and, and_true] at h
  exact ⟨toDigits_inj h.1, toDigits_inj h.2⟩

end AsyncOrder
