import AsyncOrder.Proofs.Token.Lexing
import Mathlib.Data.Nat.Digits.Defs

/-!
# Tokens, strays and what lies between them

Whatever the source, the spans of its tokens and strays stand apart, and what they leave out are
blanks and comments:

    Tiling source (lex source)                                                       (lex_tiles)

The patterns of the tokens are told independently of the lexer (`Terminal.Matches`), and a token is
the longest text that matches any of them.  One character tells which patterns can match
(`Terminal.Matches.goes`), and the lexer looks at it in the same order.
-/

namespace AsyncOrder

variable {c : Char} {cs text w rest after : List Char} {n : Int} {cls : Terminal}

/-! ## Patterns -/

/-- The number that a row of decimal digits denotes, the last one being the ones. -/
def digitsValue (digits : List Char) : Nat :=
  Nat.ofDigits 10 (digits.reverse.map fun c => c.toNat - '0'.toNat)

/-- An integer literal and the number that it denotes. -/
inductive Literal : List Char → Int → Prop
  | plain {digits : List Char} (hne : digits ≠ []) (hd : ∀ c ∈ digits, isDigit c = true) :
      Literal digits (digitsValue digits)
  | minus {digits : List Char} (hne : digits ≠ []) (hd : ∀ c ∈ digits, isDigit c = true) :
      Literal ('-' :: digits) (-digitsValue digits)

/-- The texts of a class of tokens. -/
def Terminal.Matches : Terminal → List Char → Prop
  | keyword k, cs => cs = k.text.toList
  | mark m, cs => cs = m.text.toList
  | int, cs => ∃ n, Literal cs n
  | value, cs => ∃ name, cs = '%' :: name ∧ name ≠ [] ∧ ∀ c ∈ name, isWordChar c = true
  | symbol, cs => ∃ c name, cs = '@' :: c :: name ∧ isWordStart c = true ∧
      ∀ x ∈ name, isWordChar x = true
  | ident, cs => ∃ c name, cs = c :: name ∧ isWordStart c = true ∧ ∀ x ∈ name, isWordChar x = true
  | newline, cs => cs ≠ [] ∧ ∀ c ∈ cs, c = '\n'

/-- The text is one of the token's class, and what the token carries is told by the text. -/
def Token.Reads (t : Token) (text : List Char) : Prop :=
  t.terminal.Matches text ∧
    match t with
    | int n => Literal text n ∧ -2 ^ 63 ≤ n ∧ n < 2 ^ 63
    | value name | symbol name => text.tail = name.toList
    | ident name => text = name.toList
    | _ => True

/-- Of what the text and what follows it begin with, no pattern matches more than the text. -/
def Longest (text after : List Char) : Prop :=
  ∀ (cls : Terminal) (u : List Char), cls.Matches u → u <+: text ++ after →
    u.length ≤ text.length

/-- Blanks, and comments that run to the end of their line. -/
inductive Skipped : (text after : List Char) → Prop
  | nil {after : List Char} : Skipped [] after
  | blank {c : Char} {text after : List Char} (hc : c = ' ' ∨ c = '\t' ∨ c = '\r')
      (h : Skipped text after) : Skipped (c :: text) after
  | comment {body text after : List Char} (hbody : '\n' ∉ body)
      (hline : ∀ c ∈ (text ++ after).head?, c = '\n') (h : Skipped text after) :
      Skipped ('/' :: '/' :: body ++ text) after

/-! ## The first character tells the pattern -/

/-- What may follow `c` in a text of the class. -/
def Goes (c : Char) (cls : Terminal) (w : List Char) : Prop :=
  if isBlank c then False
  else if c = '\n' then cls = .newline ∧ ∀ x ∈ w, x = '\n'
  else if isWordStart c then
    (cls = .ident ∨ ∃ k, cls = .keyword k ∧ c :: w = k.text.toList) ∧
      ∀ x ∈ w, isWordChar x = true
  else if isDigit c then cls = .int ∧ ∀ x ∈ w, isDigit x = true
  else if c = '-' then cls = .int ∧ w ≠ [] ∧ ∀ x ∈ w, isDigit x = true
  else if c = '%' then cls = .value ∧ w ≠ [] ∧ ∀ x ∈ w, isWordChar x = true
  else if c = '@' then cls = .symbol ∧ ∃ x w', w = x :: w' ∧ isWordStart x = true ∧
    ∀ y ∈ w', isWordChar y = true
  else if c = '<' then cls = .mark .arrow ∧ w = ['-'] ∨ cls = .mark .less ∧ w = []
  else ∃ m, Mark.ofChar? c = some m ∧ cls = .mark m ∧ w = []

theorem goes_word (hc : isWordStart c = true) : Goes c cls w ↔
    (cls = .ident ∨ ∃ k, cls = .keyword k ∧ c :: w = k.text.toList) ∧
      ∀ x ∈ w, isWordChar x = true := by
  obtain ⟨hb, hn⟩ := isWordStart_facts hc
  rw [Goes, if_neg (by simp [hb]), if_neg hn, if_pos hc]

theorem goes_digit (hc : isDigit c = true) :
    Goes c cls w ↔ cls = .int ∧ ∀ x ∈ w, isDigit x = true := by
  obtain ⟨hb, hn, hw⟩ := isDigit_facts hc
  rw [Goes, if_neg (by simp [hb]), if_neg hn, if_neg (by simp [hw]), if_pos hc]

theorem goes_feed : Goes '\n' cls w ↔ cls = .newline ∧ ∀ x ∈ w, x = '\n' := by
  rw [Goes, if_neg (by decide), if_pos rfl]

theorem goes_minus :
    Goes '-' cls w ↔ cls = .int ∧ w ≠ [] ∧ ∀ x ∈ w, isDigit x = true := by
  rw [Goes, if_neg (by decide), if_neg (by decide), if_neg (by decide), if_neg (by decide),
    if_pos rfl]

theorem goes_percent :
    Goes '%' cls w ↔ cls = .value ∧ w ≠ [] ∧ ∀ x ∈ w, isWordChar x = true := by
  rw [Goes, if_neg (by decide), if_neg (by decide), if_neg (by decide), if_neg (by decide),
    if_neg (by decide), if_pos rfl]

theorem goes_at : Goes '@' cls w ↔ cls = .symbol ∧ ∃ x w', w = x :: w' ∧
    isWordStart x = true ∧ ∀ y ∈ w', isWordChar y = true := by
  rw [Goes, if_neg (by decide), if_neg (by decide), if_neg (by decide), if_neg (by decide),
    if_neg (by decide), if_neg (by decide), if_pos rfl]

theorem goes_less :
    Goes '<' cls w ↔ cls = .mark .arrow ∧ w = ['-'] ∨ cls = .mark .less ∧ w = [] := by
  rw [Goes, if_neg (by decide), if_neg (by decide), if_neg (by decide), if_neg (by decide),
    if_neg (by decide), if_neg (by decide), if_neg (by decide), if_pos rfl]

theorem Mark.toList_text (m : Mark) : m.text.toList = match m with
    | arrow => ['<', '-']
    | equals => ['=']
    | comma => [',']
    | colon => [':']
    | lparen => ['(']
    | rparen => [')']
    | lbracket => ['[']
    | rbracket => [']']
    | lbrace => ['\x7b']
    | rbrace => ['\x7d']
    | less => ['<']
    | greater => ['>'] := by
  cases m <;> rfl

theorem not_matches_nil : ¬ cls.Matches [] := by
  cases cls with
  | keyword k => cases k <;> exact fun h => nomatch (show [] = _ from h)
  | mark m => cases m <;> exact fun h => nomatch (show [] = _ from h)
  | int =>
    rintro ⟨n, h⟩
    cases h with
    | plain hne => exact hne rfl
  | value => exact fun ⟨_, h, _⟩ => nomatch h
  | symbol => exact fun ⟨_, _, h, _⟩ => nomatch h
  | ident => exact fun ⟨_, _, h, _⟩ => nomatch h
  | newline => exact fun h => h.1 rfl

theorem Terminal.Matches.goes (h : cls.Matches (c :: w)) : Goes c cls w := by
  cases cls with
  | keyword k =>
    have h : c :: w = k.text.toList := h
    obtain ⟨x, xs, hk, hx, hxs⟩ := k.text_word
    obtain ⟨rfl, rfl⟩ := List.cons.inj (h.trans hk)
    exact (goes_word hx).2 ⟨Or.inr ⟨k, rfl, h⟩, hxs⟩
  | mark m =>
    have h : c :: w = m.text.toList := h
    rw [Mark.toList_text] at h
    cases m <;> (
      obtain ⟨rfl, rfl⟩ := List.cons.inj h
      simp [Goes, isBlank, isWordStart, isDigit, Mark.ofChar?])
  | int =>
    obtain ⟨n, h⟩ := h
    cases h with
    | plain hne hd =>
      rw [List.forall_mem_cons] at hd
      exact (goes_digit hd.1).2 ⟨rfl, hd.2⟩
    | minus hne hd => exact goes_minus.2 ⟨rfl, hne, hd⟩
  | value =>
    obtain ⟨name, h, hne, hd⟩ := h
    obtain ⟨rfl, rfl⟩ := List.cons.inj h
    exact goes_percent.2 ⟨rfl, hne, hd⟩
  | symbol =>
    obtain ⟨x, name, h, hx, hd⟩ := h
    obtain ⟨rfl, rfl⟩ := List.cons.inj h
    exact goes_at.2 ⟨rfl, x, name, rfl, hx, hd⟩
  | ident =>
    obtain ⟨x, name, h, hx, hd⟩ := h
    obtain ⟨rfl, rfl⟩ := List.cons.inj h
    exact (goes_word hx).2 ⟨Or.inl rfl, hd⟩
  | newline =>
    obtain ⟨-, hd⟩ := h
    rw [List.forall_mem_cons] at hd
    obtain ⟨rfl, hd⟩ := hd
    exact goes_feed.2 ⟨rfl, hd⟩

/-! ## Literals -/

theorem decimal_eq (digits : List Char) : decimal digits = digitsValue digits := by
  rw [decimal, digitsValue, List.map_reverse, Nat.ofDigits_eq_foldr, List.foldr_reverse,
    List.foldl_map]
  simp only [Nat.cast_id, Nat.add_comm]

/-- A literal denotes one number. -/
theorem Literal.eq (h : Literal text n) : n = literalValue text := by
  cases h with
  | plain hne hd =>
    obtain ⟨c, ds, rfl⟩ := List.exists_cons_of_ne_nil hne
    rw [literalValue_digits (hd c List.mem_cons_self), decimal_eq]
  | minus => rw [literalValue, decimal_eq]

theorem literal_plus {digits : List Char} (hne : digits ≠ [])
    (hd : ∀ c ∈ digits, isDigit c = true) : Literal digits (literalValue digits) :=
  (Literal.plain hne hd).eq ▸ .plain hne hd

theorem literal_minus {digits : List Char} (hne : digits ≠ [])
    (hd : ∀ c ∈ digits, isDigit c = true) :
    Literal ('-' :: digits) (literalValue ('-' :: digits)) :=
  (Literal.minus hne hd).eq ▸ .minus hne hd

theorem isInt64_iff : isInt64 n = true ↔ -2 ^ 63 ≤ n ∧ n < 2 ^ 63 := by
  simp [isInt64]

/-! ## One piece -/

/-- What the text of a piece is like, where `after` follows it. -/
def Piece.Fits : Piece → List Char → Prop
  | token t text, after => t.Reads text ∧ Longest text after ∧
      ∀ cls : Terminal, cls.Matches text →
        cls = t.terminal ∨ cls = .ident ∧ ∃ k, t = .keyword k
  | stray text, after =>
      (∃ n, Literal text n ∧ ¬(-2 ^ 63 ≤ n ∧ n < 2 ^ 63) ∧ Longest text after) ∨
      ∃ c, text = [c] ∧ ∀ (cls : Terminal) (u : List Char), cls.Matches u → ¬ u <+: c :: after
  | blank text, after => (∀ c ∈ text, c = ' ' ∨ c = '\t' ∨ c = '\r') ∨
      (∃ body, text = '/' :: '/' :: body ∧ '\n' ∉ body) ∧ ∀ c ∈ after.head?, c = '\n'

/-- The piece is what `cs` begins with, and `after` is the rest. -/
structure Cut (cs : List Char) (p : Piece) (after : List Char) : Prop where
  text : cs = p.text ++ after
  nonempty : p.text ≠ []
  fits : p.Fits after

/-- A prefix that matches begins with what the text begins with, and goes on as it may. -/
theorem goes_of_matches {u : List Char} (hu : cls.Matches u) (h : u <+: c :: rest) :
    ∃ w, u = c :: w ∧ w <+: rest ∧ Goes c cls w := by
  cases u with
  | nil => exact absurd hu not_matches_nil
  | cons x w =>
    obtain ⟨rfl, hw⟩ := List.cons_prefix_cons.1 h
    exact ⟨w, rfl, hw, hu.goes⟩

theorem longest_run {p : Char → Bool}
    (h : ∀ cls w, Goes c cls w → ∀ x ∈ w, p x = true) :
    Longest (c :: rest.takeWhile p) (rest.dropWhile p) := by
  intro cls u hu hprefix
  rw [List.cons_append, List.takeWhile_append_dropWhile] at hprefix
  obtain ⟨w, rfl, ⟨t, rfl⟩, hgoes⟩ := goes_of_matches hu hprefix
  rw [List.takeWhile_append_of_pos (h cls w hgoes), ← List.cons_append, List.length_append]
  exact Nat.le_add_right _ _

theorem cut_run {p : Char → Bool} {make : List Char → Piece}
    (htext : (make (c :: rest.takeWhile p)).text = c :: rest.takeWhile p)
    (hfits : (make (c :: rest.takeWhile p)).Fits (rest.dropWhile p)) :
    Cut (c :: rest) (run p make c rest).1 (run p make c rest).2 where
  text := by rw [run, htext, List.cons_append, List.takeWhile_append_dropWhile]
  nonempty := by rw [run, htext]; exact List.cons_ne_nil _ _
  fits := hfits

theorem text_wordPiece (word : List Char) : (wordPiece word).text = word := by
  rw [wordPiece]
  split <;> rfl

theorem text_intPiece (lit : List Char) : (intPiece lit).text = lit := by
  rw [intPiece]
  split <;> rfl

/-- The line ends there. -/
theorem head?_dropWhile (p : Char → Bool) : ∀ c ∈ (rest.dropWhile p).head?, p c = false := by
  intro c hc
  have h := List.head?_dropWhile_not p rest
  rw [Option.mem_def.1 hc] at h
  simpa using h

theorem fits_word (hc : isWordStart c = true) (hw : ∀ x ∈ w, isWordChar x = true)
    (hlongest : Longest (c :: w) after) : (wordPiece (c :: w)).Fits after := by
  have hgoes : ∀ cls : Terminal, cls.Matches (c :: w) →
      cls = .ident ∨ ∃ k, cls = .keyword k ∧ c :: w = k.text.toList := fun cls h =>
    ((goes_word hc).1 h.goes).1
  rw [wordPiece]
  split
  · next k hk =>
    have htext : c :: w = k.text.toList := by
      have hfound := List.find?_some hk
      rw [beq_iff_eq] at hfound
      rw [hfound, String.toList_ofList]
    refine ⟨⟨htext, trivial⟩, hlongest, fun cls h => ?_⟩
    rcases hgoes cls h with rfl | ⟨k', rfl, hk'⟩
    · exact Or.inr ⟨rfl, k, rfl⟩
    · rw [hk', String.ofList_toList, k'.ofText?_text] at hk
      obtain rfl := Option.some.inj hk
      exact Or.inl rfl
  · next hk =>
    refine ⟨⟨⟨c, w, rfl, hc, hw⟩, String.toList_ofList.symm⟩, hlongest, fun cls h => Or.inl ?_⟩
    rcases hgoes cls h with rfl | ⟨k', rfl, hk'⟩
    · rfl
    · rw [hk', String.ofList_toList, k'.ofText?_text] at hk
      cases hk

theorem fits_int (hlit : Literal text (literalValue text)) (hlongest : Longest text after)
    (hgoes : ∀ cls : Terminal, cls.Matches text → cls = .int) :
    (intPiece text).Fits after := by
  rw [intPiece]
  split
  · next hn =>
    exact ⟨⟨⟨_, hlit⟩, hlit, isInt64_iff.1 hn⟩, hlongest, fun cls h => Or.inl (hgoes cls h)⟩
  · next hn => exact Or.inl ⟨_, hlit, fun h => hn (isInt64_iff.2 h), hlongest⟩

/-! ## What a text begins with -/

theorem takeWhile_ne_nil {p : Char → Bool} (h : rest.head?.any p = true) :
    rest.takeWhile p ≠ [] := by
  cases rest with
  | nil => cases h
  | cons x rest =>
    rw [List.takeWhile_cons, if_pos (by exact h)]
    exact List.cons_ne_nil _ _

theorem any_head? {p : Char → Bool} (hne : w ≠ []) (hw : ∀ x ∈ w, p x = true) (h : w <+: rest) :
    rest.head?.any p = true := by
  obtain ⟨x, w, rfl⟩ := List.exists_cons_of_ne_nil hne
  obtain ⟨t, rfl⟩ := h
  exact hw x List.mem_cons_self

theorem cut_blank (hc : isBlank c = true) :
    Cut (c :: rest) (run isBlank .blank c rest).1 (run isBlank .blank c rest).2 := by
  refine cut_run rfl (Or.inl (List.forall_mem_cons.2 ⟨?_, fun x hx => ?_⟩))
  · simpa [isBlank, or_assoc] using hc
  · simpa [isBlank, or_assoc] using all_run rest x hx

theorem cut_newline : Cut ('\n' :: rest) (run (· = '\n') (.token .newline) '\n' rest).1
    (run (· = '\n') (.token .newline) '\n' rest).2 := by
  have hall : ∀ x ∈ rest.takeWhile (· = '\n'), x = '\n' := fun x hx => by
    simpa using all_run rest x hx
  refine cut_run rfl ⟨⟨⟨List.cons_ne_nil _ _, List.forall_mem_cons.2 ⟨rfl, hall⟩⟩, trivial⟩,
    longest_run fun cls w h => ?_, fun cls h => Or.inl (goes_feed.1 h.goes).1⟩
  simpa using (goes_feed.1 h).2

theorem cut_word (hc : isWordStart c = true) : Cut (c :: rest) (run isWordChar wordPiece c rest).1
    (run isWordChar wordPiece c rest).2 :=
  cut_run (text_wordPiece _) (fits_word hc (all_run rest)
    (longest_run fun _ _ h => ((goes_word hc).1 h).2))

theorem cut_digits (hc : isDigit c = true) : Cut (c :: rest) (run isDigit intPiece c rest).1
    (run isDigit intPiece c rest).2 := by
  have hd : ∀ x ∈ c :: rest.takeWhile isDigit, isDigit x = true :=
    List.forall_mem_cons.2 ⟨hc, all_run rest⟩
  exact cut_run (text_intPiece _) (fits_int (literal_plus (List.cons_ne_nil _ _) hd)
    (longest_run fun _ _ h => ((goes_digit hc).1 h).2) fun _ h => ((goes_digit hc).1 h.goes).1)

theorem cut_comment (h : rest.head? = some '/') :
    Cut ('/' :: rest) (run (· ≠ '\n') .blank '/' rest).1 (run (· ≠ '\n') .blank '/' rest).2 := by
  cases rest with
  | nil => cases h
  | cons x rest =>
    obtain rfl := Option.some.inj h
    refine cut_run rfl (Or.inr ⟨⟨rest.takeWhile (· ≠ '\n'), ?_, fun hn => ?_⟩, fun x hx => ?_⟩)
    · rw [List.takeWhile_cons]
      rfl
    · simpa using all_run rest _ hn
    · simpa using head?_dropWhile _ x hx

theorem cut_minus (h : rest.head?.any isDigit = true) :
    Cut ('-' :: rest) (run isDigit intPiece '-' rest).1 (run isDigit intPiece '-' rest).2 :=
  cut_run (text_intPiece _) (fits_int (literal_minus (takeWhile_ne_nil h) (all_run rest))
    (longest_run fun _ _ h => (goes_minus.1 h).2.2) fun _ h => (goes_minus.1 h.goes).1)

theorem cut_value (h : rest.head?.any isWordChar = true) :
    Cut ('%' :: rest) (run isWordChar valuePiece '%' rest).1
      (run isWordChar valuePiece '%' rest).2 :=
  cut_run rfl ⟨⟨⟨_, rfl, takeWhile_ne_nil h, all_run rest⟩, String.toList_ofList.symm⟩,
    longest_run fun _ _ h => (goes_percent.1 h).2.2,
    fun _ h => Or.inl (goes_percent.1 h.goes).1⟩

theorem isWordChar_of_start (hc : isWordStart c = true) : isWordChar c = true := by
  rw [isWordChar, hc, Bool.true_or]

theorem cut_symbol (h : rest.head?.any isWordStart = true) :
    Cut ('@' :: rest) (run isWordChar symbolPiece '@' rest).1
      (run isWordChar symbolPiece '@' rest).2 := by
  cases rest with
  | nil => cases h
  | cons x rest =>
    have hx : isWordStart x = true := h
    refine cut_run rfl ⟨⟨⟨x, rest.takeWhile isWordChar, ?_, hx, all_run rest⟩,
      String.toList_ofList.symm⟩, longest_run fun cls w h => ?_,
      fun _ h => Or.inl (goes_at.1 h.goes).1⟩
    · rw [List.takeWhile_cons, if_pos (isWordChar_of_start hx)]
    · obtain ⟨-, y, w', rfl, hy, hw⟩ := goes_at.1 h
      exact List.forall_mem_cons.2 ⟨isWordChar_of_start hy, hw⟩

theorem cut_arrow : Cut ('<' :: '-' :: rest) (.token (.mark .arrow) ['<', '-']) rest where
  text := rfl
  nonempty := List.cons_ne_nil _ _
  fits := by
    refine ⟨⟨rfl, trivial⟩, fun cls u hu h => ?_, fun cls h => Or.inl ?_⟩
    · obtain ⟨w, rfl, -, hgoes⟩ := goes_of_matches hu h
      rcases goes_less.1 hgoes with ⟨-, rfl⟩ | ⟨-, rfl⟩ <;> simp
    · rcases goes_less.1 h.goes with ⟨rfl, -⟩ | ⟨-, h⟩
      · rfl
      · cases h

theorem Mark.ofChar?_eq_some {m : Mark} (h : Mark.ofChar? c = some m) : m.text.toList = [c] := by
  rw [Mark.ofChar?] at h
  repeat' split at h
  all_goals
    cases h <;> simp_all [Mark.toList_text]

section

variable (hblank : ¬ isBlank c = true) (hfeed : c ≠ '\n') (hword : ¬ isWordStart c = true)
  (hdigit : ¬ isDigit c = true) (hminus : ¬(c = '-' ∧ rest.head?.any isDigit = true))
  (hvalue : ¬(c = '%' ∧ rest.head?.any isWordChar = true))
  (hsymbol : ¬(c = '@' ∧ rest.head?.any isWordStart = true))
  (harrow : ¬(c = '<' ∧ rest.head? = some '-'))
include hblank hfeed hword hdigit hminus hvalue hsymbol harrow

/-- Where nothing longer matches, a single mark may. -/
theorem goes_single (hw : w <+: rest) (h : Goes c cls w) :
    ∃ m, Mark.ofChar? c = some m ∧ cls = .mark m ∧ w = [] := by
  rw [Goes, if_neg hblank, if_neg hfeed, if_neg hword, if_neg hdigit] at h
  split at h
  · next hc => exact absurd ⟨hc, any_head? h.2.1 h.2.2 hw⟩ hminus
  split at h
  · next hc => exact absurd ⟨hc, any_head? h.2.1 h.2.2 hw⟩ hvalue
  split at h
  · next hc =>
    obtain ⟨-, x, w', rfl, hx, -⟩ := h
    obtain ⟨t, rfl⟩ := hw
    exact absurd ⟨hc, hx⟩ hsymbol
  split at h
  · next hc =>
    subst hc
    rcases h with ⟨-, rfl⟩ | ⟨rfl, rfl⟩
    · obtain ⟨t, rfl⟩ := hw
      exact absurd ⟨rfl, rfl⟩ harrow
    · exact ⟨.less, by decide, rfl, rfl⟩
  · exact h

theorem cut_single : Cut (c :: rest) (charPiece c) rest := by
  have hgoes : ∀ (cls : Terminal) (u : List Char), cls.Matches u → u <+: c :: rest →
      ∃ m, Mark.ofChar? c = some m ∧ cls = .mark m ∧ u = [c] := by
    intro cls u hu h
    obtain ⟨w, rfl, hw, hgoes⟩ := goes_of_matches hu h
    obtain ⟨m, hm, hclass, rfl⟩ := goes_single hblank hfeed hword hdigit hminus hvalue hsymbol
      harrow hw hgoes
    exact ⟨m, hm, hclass, rfl⟩
  rw [charPiece]
  split
  · next m hm =>
    refine ⟨rfl, List.cons_ne_nil _ _, ⟨(Mark.ofChar?_eq_some hm).symm, trivial⟩,
      fun cls u hu h => ?_, fun cls h => Or.inl ?_⟩
    · obtain ⟨-, -, -, rfl⟩ := hgoes cls u hu h
      rfl
    · obtain ⟨m', hm', rfl, -⟩ := hgoes cls [c] h ⟨rest, rfl⟩
      rw [Option.some.inj (hm.symm.trans hm')]
      rfl
  · next hnone =>
    refine ⟨rfl, List.cons_ne_nil _ _, Or.inr ⟨c, rfl, fun cls u hu h => ?_⟩⟩
    obtain ⟨m, hm, -⟩ := hgoes cls u hu h
    rw [hnone] at hm
    cases hm

end

/-- What a text begins with is cut off as the patterns tell. -/
theorem cut_firstPiece (c : Char) (rest : List Char) :
    Cut (c :: rest) (firstPiece c rest).1 (firstPiece c rest).2 := by
  unfold firstPiece
  split
  · next hc => exact cut_blank hc
  next hblank =>
  split
  · next hc =>
    subst hc
    exact cut_newline
  next hfeed =>
  split
  · next hc => exact cut_word hc
  next hword =>
  split
  · next hc => exact cut_digits hc
  next hdigit =>
  simp only [Bool.and_eq_true, decide_eq_true_eq]
  split
  · next hc =>
    obtain ⟨rfl, h⟩ := hc
    exact cut_comment h
  split
  · next hc =>
    obtain ⟨rfl, h⟩ := hc
    exact cut_minus h
  next hminus =>
  split
  · next hc =>
    obtain ⟨rfl, h⟩ := hc
    exact cut_value h
  next hvalue =>
  split
  · next hc =>
    obtain ⟨rfl, h⟩ := hc
    exact cut_symbol h
  next hsymbol =>
  split
  · next hc =>
    obtain ⟨rfl, h⟩ := hc
    obtain ⟨t, rfl⟩ : ∃ t, rest = '-' :: t := by
      cases rest with
      | nil => cases h
      | cons x t => exact ⟨t, congrArg (· :: t) (Option.some.inj h)⟩
    exact cut_arrow
  next harrow =>
  exact cut_single hblank hfeed hword hdigit hminus hvalue hsymbol harrow

/-! ## All pieces -/

/-- The text of the pieces. -/
def glue (ps : List Piece) : List Char := ps.flatMap Piece.text

@[simp]
theorem glue_nil : glue [] = [] := rfl

@[simp]
theorem glue_cons (p : Piece) (ps : List Piece) : glue (p :: ps) = p.text ++ glue ps := rfl

@[simp]
theorem glue_append (ps qs : List Piece) : glue (ps ++ qs) = glue ps ++ glue qs :=
  List.flatMap_append

theorem glue_pieces (cs : List Char) : glue (pieces cs) = cs := by
  fun_induction pieces cs with
  | case1 => rfl
  | case2 c rest ih => rw [glue_cons, ih, ← (cut_firstPiece c rest).text]

section

variable {l r : List Piece} {p : Piece}

/-- Each piece is what the text behind the pieces before it begins with. -/
theorem firstPiece_of_pieces (h : pieces cs = l ++ p :: r) :
    ∃ c rest, cs = glue l ++ c :: rest ∧ firstPiece c rest = (p, glue r) := by
  induction l generalizing cs with
  | nil =>
    cases cs with
    | nil =>
      rw [pieces] at h
      cases h
    | cons c rest =>
      rw [pieces] at h
      obtain ⟨rfl, rfl⟩ := List.cons.inj h
      exact ⟨c, rest, rfl, by rw [glue_pieces]⟩
  | cons x l ih =>
    cases cs with
    | nil =>
      rw [pieces] at h
      cases h
    | cons c rest =>
      rw [pieces, List.cons_append, List.cons.injEq] at h
      obtain ⟨rfl, h⟩ := h
      obtain ⟨d, tail, htail, hfirst⟩ := ih h
      refine ⟨d, tail, ?_, hfirst⟩
      rw [(cut_firstPiece c rest).text, htail, glue_cons, List.append_assoc]

theorem cut_of_pieces (h : pieces cs = l ++ p :: r) : Cut (p.text ++ glue r) p (glue r) := by
  obtain ⟨c, rest, -, hfirst⟩ := firstPiece_of_pieces h
  have hcut := cut_firstPiece c rest
  rw [hfirst] at hcut
  exact hcut.text ▸ hcut

theorem skipped_blanks (hc : ∀ c ∈ w, c = ' ' ∨ c = '\t' ∨ c = '\r') (h : Skipped text after) :
    Skipped (w ++ text) after := by
  induction w with
  | nil => exact h
  | cons c w ih =>
    rw [List.forall_mem_cons] at hc
    exact .blank hc.1 (ih hc.2)

/-- Blank pieces in a row are blanks and comments. -/
theorem skipped_of_pieces {mid : List Piece} (h : pieces cs = l ++ (mid ++ r))
    (hblank : ∀ p ∈ mid, ∃ text, p = .blank text) : Skipped (glue mid) (glue r) := by
  induction mid generalizing l with
  | nil => exact .nil
  | cons p mid ih =>
    rw [List.forall_mem_cons] at hblank
    obtain ⟨⟨t, rfl⟩, hblank⟩ := hblank
    have hrest := ih (l := l ++ [.blank t]) (by rw [h, List.append_assoc]; rfl) hblank
    have hfits : (Piece.blank t).Fits (glue (mid ++ r)) := (cut_of_pieces h).fits
    rw [glue_append] at hfits
    rcases hfits with hall | ⟨⟨body, rfl, hbody⟩, hline⟩
    · exact skipped_blanks hall hrest
    · exact .comment hbody hline hrest

/-! ## Bytes -/

theorem utf8Length_eq (cs : List Char) : utf8Length cs = (String.ofList cs).utf8ByteSize := by
  have hfold : ∀ n, cs.foldl (fun n c => n + c.utf8Size) n =
      n + (String.ofList cs).utf8ByteSize := by
    induction cs with
    | nil => exact fun n => rfl
    | cons c cs ih =>
      intro n
      rw [List.foldl_cons, ih, String.ofList_cons, String.utf8ByteSize_append,
        String.utf8ByteSize_singleton, Nat.add_assoc]
  rw [utf8Length, hfold, Nat.zero_add]

theorem utf8Length_toList (s : String) : utf8Length s.toList = s.utf8ByteSize := by
  rw [utf8Length_eq, String.ofList_toList]

theorem utf8Length_append (cs text : List Char) :
    utf8Length (cs ++ text) = utf8Length cs + utf8Length text := by
  simp only [utf8Length_eq, String.ofList_append, String.utf8ByteSize_append]

theorem utf8Length_pos (h : cs ≠ []) : 0 < utf8Length cs := by
  obtain ⟨c, cs, rfl⟩ := List.exists_cons_of_ne_nil h
  rw [← List.singleton_append, utf8Length_append]
  exact Nat.lt_add_right _ (Nat.lt_add_left 0 c.utf8Size_pos)

/-- Prefixes of a text with as many bytes are the same. -/
theorem eq_of_utf8Length {cs' : List Char} (h : cs ++ text = cs' ++ rest)
    (hlength : utf8Length cs = utf8Length cs') : cs = cs' ∧ text = rest := by
  rcases List.append_eq_append_iff.1 h with ⟨d, rfl, rfl⟩ | ⟨d, rfl, rfl⟩
  all_goals
    rw [utf8Length_append] at hlength
    have hd : d = [] := by
      by_contra hne
      have := utf8Length_pos hne
      omega
    subst hd
    simp

/-! ## Places -/

/-- Where a piece stands that `l` is before. -/
def spanAfter (l : List Piece) (p : Piece) : Span :=
  ⟨utf8Length (glue l), utf8Length (glue l) + utf8Length p.text⟩

theorem mem_placed {start : Nat} {ps : List Piece} {span : Span} :
    (p, span) ∈ placed start ps ↔ ∃ l r, ps = l ++ p :: r ∧
      span = ⟨start + utf8Length (glue l), start + utf8Length (glue l) + utf8Length p.text⟩ := by
  induction ps generalizing start with
  | nil => simp [placed]
  | cons x ps ih =>
    rw [placed, List.mem_cons, ih]
    constructor
    · rintro (h | ⟨l, r, rfl, rfl⟩)
      · obtain ⟨rfl, rfl⟩ := Prod.mk.inj h
        exact ⟨[], ps, rfl, rfl⟩
      · exact ⟨x :: l, r, rfl, by simp only [glue_cons, utf8Length_append, Nat.add_assoc]⟩
    · rintro ⟨l, r, hps, rfl⟩
      cases l with
      | nil =>
        obtain ⟨rfl, rfl⟩ := List.cons.inj hps
        exact Or.inl rfl
      | cons y l =>
        rw [List.cons_append, List.cons.injEq] at hps
        obtain ⟨rfl, rfl⟩ := hps
        exact Or.inr ⟨l, r, rfl, by simp only [glue_cons, utf8Length_append, Nat.add_assoc]⟩

/-- The pieces stand one behind the other. -/
theorem pairwise_placed (start : Nat) (ps : List Piece) :
    (placed start ps).Pairwise fun a b => a.2.stop ≤ b.2.start := by
  induction ps generalizing start with
  | nil => exact .nil
  | cons x ps ih =>
    rw [placed]
    refine List.Pairwise.cons (fun e he => ?_) (ih _)
    obtain ⟨l, r, -, hspan⟩ := mem_placed.1 he
    rw [hspan]
    exact Nat.le_add_right _ _

/-- So does what is made of some of them and keeps their spans. -/
theorem pairwise_filterMap_placed {β : Type} {f : Piece × Span → Option β} {g : β → Span}
    (hf : ∀ e, ∀ x ∈ f e, g x = e.2) {start : Nat} {ps : List Piece} :
    ((placed start ps).filterMap f).Pairwise fun x y => (g x).stop ≤ (g y).start := by
  refine List.pairwise_filterMap.2 ((pairwise_placed start ps).imp fun hab x hx y hy => ?_)
  rwa [hf _ x hx, hf _ y hy]

theorem mem_placed_pieces {span : Span} : (p, span) ∈ placed 0 (pieces cs) ↔
    ∃ l r, pieces cs = l ++ p :: r ∧ span = spanAfter l p := by
  simp only [mem_placed, Nat.zero_add, spanAfter]

end

/-! ## The source -/

/-- `text` stands between `before` and `after`, and the span tells its bytes. -/
structure Slice (source : String) (span : Span) (before text after : String) : Prop where
  source : source = before ++ text ++ after
  start : span.start = before.utf8ByteSize
  stop : span.stop = (before ++ text).utf8ByteSize
  nonempty : text ≠ ""

def Lexed.spans (l : Lexed) : List Span := l.tokens.map (·.span) ++ l.strays.map (·.span)

/-- What the lexer makes of a source. -/
structure Tiling (source : String) (l : Lexed) : Prop where
  /-- A token is the longest match where it stands; only keywords match two patterns. -/
  token : ∀ t ∈ l.tokens, ∃ before text after, Slice source t.span before text after ∧
    t.token.Reads text.toList ∧ Longest text.toList after.toList ∧
    ∀ cls : Terminal, cls.Matches text.toList →
      cls = t.token.terminal ∨ cls = .ident ∧ ∃ k, t.token = .keyword k
  /-- What is stray is a literal that denotes too large a number, or one character where nothing
  matches. -/
  stray : ∀ s ∈ l.strays, ∃ before text after, Slice source s.span before text after ∧
    s.text = text.toList ∧
    ((∃ n, Literal text.toList n ∧ ¬(-2 ^ 63 ≤ n ∧ n < 2 ^ 63) ∧
        Longest text.toList after.toList) ∨
      ∃ c, text.toList = [c] ∧ ∀ (cls : Terminal) (u : List Char), cls.Matches u →
        ¬ u <+: c :: after.toList)
  /-- A literal that no digit prolongs, where a token or something stray begins. -/
  literal : ∀ (before text after : String) (n : Int), source = before ++ text ++ after →
    Literal text.toList n → (∀ c ∈ after.toList.head?, isDigit c = false) →
    (∃ span ∈ l.spans, span.start = before.utf8ByteSize) →
    let span : Span := ⟨before.utf8ByteSize, (before ++ text).utf8ByteSize⟩
    (⟨.int n, span⟩ ∈ l.tokens ↔ -2 ^ 63 ≤ n ∧ n < 2 ^ 63) ∧
      (⟨text.toList, span⟩ ∈ l.strays ↔ ¬(-2 ^ 63 ≤ n ∧ n < 2 ^ 63))
  tokens : l.tokens.Pairwise fun a b => a.span.stop ≤ b.span.start
  strays : l.strays.Pairwise fun a b => a.span.stop ≤ b.span.start
  apart : ∀ t ∈ l.tokens, ∀ s ∈ l.strays,
    t.span.stop ≤ s.span.start ∨ s.span.stop ≤ t.span.start
  /-- From the end of a span, or the start, to the beginning of the next one, or the end. -/
  gap : ∀ before text after : String, source = before ++ text ++ after →
    (before = "" ∨ ∃ span ∈ l.spans, span.stop = before.utf8ByteSize) →
    (after = "" ∨ ∃ span ∈ l.spans, span.start = (before ++ text).utf8ByteSize) →
    (∀ span ∈ l.spans, span.stop ≤ before.utf8ByteSize ∨
      (before ++ text).utf8ByteSize ≤ span.start) →
    Skipped text.toList after.toList

section

variable {source : String} {l r : List Piece} {p : Piece}

theorem mem_tokens_lex {t : Lexeme} : t ∈ (lex source).tokens ↔
    ∃ text, (.token t.token text, t.span) ∈ placed 0 (pieces source.toList) := by
  rw [lex, List.mem_filterMap]
  constructor
  · rintro ⟨⟨p, span⟩, he, h⟩
    cases p with
    | token t' text =>
      obtain rfl := Option.some.inj h
      exact ⟨text, he⟩
    | stray | blank => cases h
  · rintro ⟨text, he⟩
    exact ⟨_, he, rfl⟩

theorem mem_strays_lex {s : Stray} : s ∈ (lex source).strays ↔
    (.stray s.text, s.span) ∈ placed 0 (pieces source.toList) := by
  rw [lex, List.mem_filterMap]
  constructor
  · rintro ⟨⟨p, span⟩, he, h⟩
    cases p with
    | stray text =>
      obtain rfl := Option.some.inj h
      exact he
    | token | blank => cases h
  · exact fun he => ⟨_, he, rfl⟩

theorem mem_spans_lex {span : Span} : span ∈ (lex source).spans ↔
    ∃ l p r, pieces source.toList = l ++ p :: r ∧ (∀ text, p ≠ .blank text) ∧
      span = spanAfter l p := by
  simp only [Lexed.spans, List.mem_append, List.mem_map, mem_tokens_lex, mem_strays_lex,
    mem_placed_pieces]
  constructor
  · rintro (⟨t, ⟨text, l, r, h, hspan⟩, rfl⟩ | ⟨s, ⟨l, r, h, hspan⟩, rfl⟩)
    · exact ⟨l, _, r, h, nofun, hspan⟩
    · exact ⟨l, _, r, h, nofun, hspan⟩
  · rintro ⟨l, p, r, h, hblank, rfl⟩
    cases p with
    | token t text => exact Or.inl ⟨⟨t, _⟩, ⟨text, l, r, h, rfl⟩, rfl⟩
    | stray text => exact Or.inr ⟨⟨text, _⟩, ⟨l, r, h, rfl⟩, rfl⟩
    | blank text => exact absurd rfl (hblank text)

theorem slice_of_pieces (h : pieces source.toList = l ++ p :: r) :
    Slice source (spanAfter l p) (.ofList (glue l)) (.ofList p.text) (.ofList (glue r)) where
  source := by
    have hglue := glue_pieces source.toList
    rw [h, glue_append, glue_cons] at hglue
    rw [← String.ofList_append, ← String.ofList_append, List.append_assoc, hglue,
      String.ofList_toList]
  start := utf8Length_eq _
  stop := by
    rw [← String.ofList_append, ← utf8Length_eq, utf8Length_append]
    rfl
  nonempty heq := (cut_of_pieces h).nonempty (by
    rw [← String.toList_ofList (l := p.text), heq]
    rfl)

/-- A literal that no digit prolongs is one piece. -/
theorem firstPiece_literal (h : Literal (c :: w) n)
    (hafter : ∀ c ∈ after.head?, isDigit c = false) :
    firstPiece c (w ++ after) = (intPiece (c :: w), after) := by
  cases h with
  | plain hne hd =>
    rw [List.forall_mem_cons] at hd
    rw [firstPiece_digit hd.1, run_append hd.2 hafter]
  | minus hne hd =>
    have hnext : (w ++ after).head?.any isDigit = true := any_head? hne hd ⟨after, rfl⟩
    rw [firstPiece, if_neg (by decide), if_neg (by decide), if_neg (by decide),
      if_neg (by decide), if_neg (by simp), if_pos (by simpa using hnext), run_append hd hafter]

/-- The pieces before a place where something begins. -/
theorem pieces_before {cs text : List Char} (h : source.toList = cs ++ text)
    (hpieces : pieces source.toList = l ++ r) (hlength : utf8Length (glue l) = utf8Length cs) :
    glue l = cs ∧ glue r = text := by
  refine eq_of_utf8Length ?_ hlength
  rw [← glue_append, ← hpieces, glue_pieces, h]

theorem literal_lex {before text after : String} (hsource : source = before ++ text ++ after)
    (hlit : Literal text.toList n) (hafter : ∀ c ∈ after.toList.head?, isDigit c = false)
    (hspan : ∃ span ∈ (lex source).spans, span.start = before.utf8ByteSize) :
    ∃ l r, pieces source.toList = l ++ intPiece text.toList :: r ∧
      spanAfter l (intPiece text.toList) =
        ⟨before.utf8ByteSize, (before ++ text).utf8ByteSize⟩ := by
  obtain ⟨span, hspan, hstart⟩ := hspan
  obtain ⟨l, p, r, hpieces, -, rfl⟩ := mem_spans_lex.1 hspan
  have htext : source.toList = before.toList ++ (text.toList ++ after.toList) := by
    rw [hsource, String.toList_append, String.toList_append, List.append_assoc]
  have hlength : utf8Length (glue l) = utf8Length before.toList := by
    rw [utf8Length_toList]
    exact hstart
  obtain ⟨hbefore, hrest⟩ := pieces_before htext hpieces hlength
  obtain ⟨c, rest, hcs, hfirst⟩ := firstPiece_of_pieces hpieces
  rw [htext, hbefore] at hcs
  obtain ⟨d, w, hw⟩ := List.exists_cons_of_ne_nil (l := text.toList) fun hnil =>
    not_matches_nil (show Terminal.Matches .int [] from ⟨n, hnil ▸ hlit⟩)
  rw [hw, List.cons_append] at hcs
  obtain ⟨rfl, rfl⟩ := List.cons.inj (List.append_cancel_left hcs)
  rw [firstPiece_literal (hw ▸ hlit) hafter] at hfirst
  obtain ⟨rfl, -⟩ := Prod.mk.inj hfirst
  rw [← hw] at hpieces
  refine ⟨l, r, hpieces, ?_⟩
  rw [spanAfter, text_intPiece, hlength, utf8Length_eq, utf8Length_eq, String.utf8ByteSize_append,
    String.ofList_toList, String.ofList_toList]

/-- Between two places where a piece ends or begins there are whole pieces. -/
theorem pieces_between {mid text : List Char} {l' r' : List Piece}
    (hpieces : pieces source.toList = l ++ r) (hpieces' : pieces source.toList = l' ++ r')
    (hl : glue l = mid) (hl' : glue l' = mid ++ text) :
    ∃ ps, l' = l ++ ps ∧ r = ps ++ r' ∧ glue ps = text := by
  have heq := hpieces.symm.trans hpieces'
  rcases List.append_eq_append_iff.1 heq with ⟨ps, rfl, rfl⟩ | ⟨ps, rfl, rfl⟩
  · refine ⟨ps, rfl, rfl, ?_⟩
    rw [glue_append, hl] at hl'
    exact List.append_cancel_left hl'
  · cases ps with
    | nil =>
      refine ⟨[], by simp, rfl, ?_⟩
      rw [List.append_nil] at hl
      rw [hl, List.self_eq_append_right] at hl'
      exact hl'.symm
    | cons p ps =>
      -- a piece is not empty
      have hne := (cut_of_pieces (l := l') (r := ps ++ r) hpieces').nonempty
      rw [glue_append, hl'] at hl
      have hnil := List.self_eq_append_right.1 ((List.append_assoc ..).symm.trans hl).symm
      simp [hne] at hnil

/-! A span ends or begins where a piece does. -/

theorem pieces_of_stop {before after : String} (hsource : source = before ++ after)
    (hstop : before = "" ∨ ∃ span ∈ (lex source).spans, span.stop = before.utf8ByteSize) :
    ∃ l r, pieces source.toList = l ++ r ∧ glue l = before.toList ∧ glue r = after.toList := by
  rcases hstop with rfl | ⟨span, hspan, hstop⟩
  · refine ⟨[], _, rfl, rfl, ?_⟩
    rw [glue_pieces, hsource, String.empty_append]
  · obtain ⟨l, p, r, hpieces, -, rfl⟩ := mem_spans_lex.1 hspan
    have hpieces : pieces source.toList = (l ++ [p]) ++ r := by
      rw [hpieces, List.append_assoc]
      rfl
    refine ⟨l ++ [p], r, hpieces, pieces_before (hsource ▸ String.toList_append) hpieces ?_⟩
    rw [utf8Length_toList, ← hstop, glue_append, utf8Length_append]
    simp [spanAfter]

theorem pieces_of_start {before after : String} (hsource : source = before ++ after)
    (hstart : after = "" ∨ ∃ span ∈ (lex source).spans, span.start = before.utf8ByteSize) :
    ∃ l r, pieces source.toList = l ++ r ∧ glue l = before.toList ∧ glue r = after.toList := by
  rcases hstart with rfl | ⟨span, hspan, hstart⟩
  · refine ⟨_, [], (List.append_nil _).symm, ?_, rfl⟩
    rw [glue_pieces, hsource, String.append_empty]
  · obtain ⟨l, p, r, hpieces, -, rfl⟩ := mem_spans_lex.1 hspan
    refine ⟨l, p :: r, hpieces, pieces_before (hsource ▸ String.toList_append) hpieces ?_⟩
    rw [utf8Length_toList, ← hstart]
    rfl

/-- What lies between two spans is skipped. -/
theorem skipped_lex {before text after : String} (hsource : source = before ++ text ++ after)
    (hleft : before = "" ∨ ∃ span ∈ (lex source).spans, span.stop = before.utf8ByteSize)
    (hright : after = "" ∨
      ∃ span ∈ (lex source).spans, span.start = (before ++ text).utf8ByteSize)
    (hnone : ∀ span ∈ (lex source).spans, span.stop ≤ before.utf8ByteSize ∨
      (before ++ text).utf8ByteSize ≤ span.start) :
    Skipped text.toList after.toList := by
  obtain ⟨l, r, hpieces, hl, -⟩ := pieces_of_stop (hsource.trans (String.append_assoc ..)) hleft
  obtain ⟨l', r', hpieces', hl', hafter⟩ := pieces_of_start hsource hright
  obtain ⟨ps, rfl, rfl, htext⟩ := pieces_between hpieces hpieces' hl
    (hl'.trans String.toList_append)
  rw [← htext, ← hafter]
  refine skipped_of_pieces hpieces fun p hp => ?_
  by_contra hblank
  -- a piece that is not blank has a span
  obtain ⟨ps₁, ps₂, rfl⟩ := List.append_of_mem hp
  have hsplit : pieces source.toList = (l ++ ps₁) ++ p :: (ps₂ ++ r') := by
    rw [hpieces]
    simp
  have hspan := mem_spans_lex.2 ⟨l ++ ps₁, p, ps₂ ++ r', hsplit,
    fun text heq => hblank ⟨text, heq⟩, rfl⟩
  have hpos := utf8Length_pos (cut_of_pieces hsplit).nonempty
  have hbefore := utf8Length_toList before
  have hboth := utf8Length_toList (before ++ text)
  rw [← hl] at hbefore
  rw [← hl'] at hboth
  simp only [glue_append, glue_cons, utf8Length_append] at hboth
  rcases hnone _ hspan with h | h
  all_goals
    simp only [spanAfter, glue_append, utf8Length_append] at h
    omega

/-! ## All of the source -/

theorem token_lex : ∀ t ∈ (lex source).tokens, ∃ before text after,
    Slice source t.span before text after ∧ t.token.Reads text.toList ∧
      Longest text.toList after.toList ∧ ∀ cls : Terminal, cls.Matches text.toList →
        cls = t.token.terminal ∨ cls = .ident ∧ ∃ k, t.token = .keyword k := by
  intro t ht
  obtain ⟨text, ht⟩ := mem_tokens_lex.1 ht
  obtain ⟨l, r, hpieces, hspan⟩ := mem_placed_pieces.1 ht
  obtain ⟨hreads, hlongest, hbest⟩ := (cut_of_pieces hpieces).fits
  refine ⟨_, _, _, hspan ▸ slice_of_pieces hpieces, ?_⟩
  simp only [String.toList_ofList]
  exact ⟨hreads, hlongest, hbest⟩

theorem stray_lex : ∀ s ∈ (lex source).strays, ∃ before text after,
    Slice source s.span before text after ∧ s.text = text.toList ∧
      ((∃ n, Literal text.toList n ∧ ¬(-2 ^ 63 ≤ n ∧ n < 2 ^ 63) ∧
          Longest text.toList after.toList) ∨
        ∃ c, text.toList = [c] ∧ ∀ (cls : Terminal) (u : List Char), cls.Matches u →
          ¬ u <+: c :: after.toList) := by
  intro s hs
  obtain ⟨l, r, hpieces, hspan⟩ := mem_placed_pieces.1 (mem_strays_lex.1 hs)
  refine ⟨_, _, _, hspan ▸ slice_of_pieces hpieces, ?_⟩
  simp only [String.toList_ofList]
  exact ⟨rfl, (cut_of_pieces hpieces).fits⟩

theorem apart_lex : ∀ t ∈ (lex source).tokens, ∀ s ∈ (lex source).strays,
    t.span.stop ≤ s.span.start ∨ s.span.stop ≤ t.span.start := by
  intro t ht s hs
  obtain ⟨text, ht⟩ := mem_tokens_lex.1 ht
  have hpairwise := pairwise_placed 0 (pieces source.toList)
  have hall : ∀ a ∈ placed 0 (pieces source.toList), ∀ b ∈ placed 0 (pieces source.toList),
      a = b ∨ a.2.stop ≤ b.2.start ∨ b.2.stop ≤ a.2.start := fun a ha b hb =>
    List.Pairwise.forall_of_forall_of_flip
      (R := fun a b => a = b ∨ a.2.stop ≤ b.2.start ∨ b.2.stop ≤ a.2.start)
      (fun _ _ => Or.inl rfl) (hpairwise.imp fun h => Or.inr (Or.inl h))
      (hpairwise.imp fun h => Or.inr (Or.inr h)) ha hb
  rcases hall _ ht _ (mem_strays_lex.1 hs) with heq | h
  · cases heq
  · exact h

end

/-- Tokens and strays tile the source, but for blanks and comments. -/
theorem lex_tiles (source : String) : Tiling source (lex source) := by
  constructor
  case token => exact token_lex
  case stray => exact stray_lex
  case literal =>
    intro before text after n hsource hlit hafter hspan
    obtain ⟨l, r, hpieces, hplace⟩ := literal_lex hsource hlit hafter hspan
    have hmem := mem_placed_pieces.2 ⟨l, r, hpieces, hplace.symm⟩
    rw [intPiece, ← hlit.eq] at hmem
    refine ⟨⟨fun ht => ?_, fun hn => ?_⟩, fun hs hn => ?_, fun hn => ?_⟩
    · obtain ⟨-, -, -, -, ⟨-, -, hrange⟩, -⟩ := token_lex _ ht
      exact hrange
    · rw [if_pos (isInt64_iff.2 hn)] at hmem
      exact mem_tokens_lex.2 ⟨_, hmem⟩
    · obtain ⟨-, text', after', -, htext, ⟨m, hm, hrange, -⟩ | ⟨c, hc, hno⟩⟩ := stray_lex _ hs
      · rw [← htext] at hm
        exact hrange (hm.eq.trans hlit.eq.symm ▸ hn)
      · exact hno .int text'.toList ⟨n, htext ▸ hlit⟩ ⟨after'.toList, by rw [hc]; rfl⟩
    · rw [if_neg fun h => hn (isInt64_iff.1 h)] at hmem
      exact mem_strays_lex.2 hmem
  case tokens =>
    refine pairwise_filterMap_placed fun e x hx => ?_
    obtain ⟨p, span⟩ := e
    cases p <;> cases hx
    rfl
  case strays =>
    refine pairwise_filterMap_placed fun e x hx => ?_
    obtain ⟨p, span⟩ := e
    cases p <;> cases hx
    rfl
  case apart => exact apart_lex
  case gap => exact fun _ _ _ => skipped_lex

end AsyncOrder
