import AsyncOrder.Token.Lexer
import Mathlib.Data.List.Basic

/-!
# What texts are lexed as

    Lexes cs ts          cs falls into the tokens ts and blanks, with nothing stray
    Token.spelling t     the text of a token

Lexing goes from left to right, and the first token takes all the text it can; so a token that
is spelled out comes back if what stands behind it does not prolong it (`lexes_token`).
Conversely the tokens of a text without strays are such as can be spelled (`valid_of_lex`).
-/

namespace AsyncOrder

variable {cs rest : List Char} {ts us : List Token}

/-! ## Texts without strays -/

structure Lexes (cs : List Char) (ts : List Token) : Prop where
  tokens : (pieces cs).filterMap Piece.token? = ts
  clean : ∀ p ∈ pieces cs, ∀ text, p ≠ .stray text

theorem filterMap_placed {β : Type} (f : Piece → Option β) (start : Nat) (ps : List Piece) :
    (placed start ps).filterMap (fun e => f e.1) = ps.filterMap f := by
  induction ps generalizing start with
  | nil => rfl
  | cons p ps ih => simp only [placed, List.filterMap_cons, ih]

theorem tokens_lex (source : String) :
    (lex source).tokens.map (·.token) = (pieces source.toList).filterMap Piece.token? := by
  rw [← filterMap_placed Piece.token? 0, lex, List.map_filterMap]
  refine List.filterMap_congr fun e _ => ?_
  obtain ⟨p, span⟩ := e
  cases p <;> rfl

theorem strays_lex (source : String) : (lex source).strays.map (·.text) =
    (pieces source.toList).filterMap fun | .stray text => some text | _ => none := by
  rw [← filterMap_placed _ 0, lex, List.map_filterMap]
  refine List.filterMap_congr fun e _ => ?_
  obtain ⟨p, span⟩ := e
  cases p <;> rfl

theorem strays_lex_eq_nil {source : String} :
    (lex source).strays = [] ↔ ∀ p ∈ pieces source.toList, ∀ text, p ≠ .stray text := by
  rw [← List.map_eq_nil_iff (f := (·.text)), strays_lex, List.filterMap_eq_nil_iff]
  refine forall_congr' fun p => imp_congr_right fun _ => ?_
  cases p <;> simp

/-- Spelled out, a source without strays. -/
theorem Lexes.lex {source : String} (h : Lexes source.toList ts) :
    (lex source).tokens.map (·.token) = ts ∧ (AsyncOrder.lex source).strays = [] :=
  ⟨(tokens_lex source).trans h.tokens, strays_lex_eq_nil.2 h.clean⟩

/-! ## One piece after the other -/

theorem lexes_nil : Lexes [] [] := by
  constructor
  · rw [pieces, List.filterMap_nil]
  · intro p hp
    rw [pieces] at hp
    cases hp

theorem Lexes.token {c : Char} {t : Token} (text tail : List Char)
    (h : firstPiece c cs = (.token t text, tail)) (htail : Lexes tail ts) :
    Lexes (c :: cs) (t :: ts) := by
  constructor
  · rw [pieces, h, List.filterMap_cons, htail.tokens]
    rfl
  · rw [pieces, h]
    exact List.forall_mem_cons.2 ⟨by simp, htail.clean⟩

theorem lexes_cons_blank {c : Char} (text : List Char) {tail : List Char}
    (h : firstPiece c cs = (.blank text, tail)) : Lexes (c :: cs) ts ↔ Lexes tail ts := by
  have hiff : (∀ p ∈ pieces (c :: cs), ∀ text, p ≠ .stray text) ↔
      ∀ p ∈ pieces tail, ∀ text, p ≠ .stray text := by
    rw [pieces, h, List.forall_mem_cons]
    exact and_iff_right (by simp)
  have htokens : (pieces (c :: cs)).filterMap Piece.token? =
      (pieces tail).filterMap Piece.token? := by
    rw [pieces, h]
    rfl
  exact ⟨fun hl => ⟨htokens ▸ hl.tokens, hiff.1 hl.clean⟩,
    fun hl => ⟨htokens.trans hl.tokens, hiff.2 hl.clean⟩⟩

/-! ## Stretches of one class -/

/-- The text does not begin with a character of class `p`. -/
def Avoids (p : Char → Bool) (cs : List Char) : Prop := ∀ c ∈ cs.head?, p c = false

theorem avoids_cons {p : Char → Bool} {c : Char} : Avoids p (c :: cs) ↔ p c = false := by
  simp [Avoids]

theorem avoids_nil (p : Char → Bool) : Avoids p [] := by simp [Avoids]

theorem Avoids.mono {p q : Char → Bool} (hpq : ∀ c, p c = true → q c = true) (h : Avoids q cs) :
    Avoids p cs := by
  intro c hc
  have hq := h c hc
  cases hp : p c with
  | false => rfl
  | true => rw [hpq c hp] at hq; cases hq

theorem run_append {p : Char → Bool} {make : List Char → Piece} {c : Char} {w : List Char}
    (hword : ∀ x ∈ w, p x = true) (hrest : Avoids p rest) :
    run p make c (w ++ rest) = (make (c :: w), rest) := by
  have htake : rest.takeWhile p = [] := by
    cases rest with
    | nil => rfl
    | cons x xs => rw [List.takeWhile_cons, avoids_cons.1 hrest]; rfl
  have hdrop : rest.dropWhile p = rest := by
    cases rest with
    | nil => rfl
    | cons x xs => rw [List.dropWhile_cons, avoids_cons.1 hrest]; rfl
  rw [run, List.takeWhile_append_of_pos hword, List.dropWhile_append_of_pos hword, htake, hdrop,
    List.append_nil]

/-! ## Blanks and newlines -/

theorem lexes_dropWhile_isBlank : Lexes (cs.dropWhile isBlank) ts ↔ Lexes cs ts := by
  cases cs with
  | nil => rfl
  | cons c cs =>
    rw [List.dropWhile_cons]
    split
    · next hc =>
      refine (lexes_cons_blank (c :: cs.takeWhile isBlank) ?_).symm
      rw [firstPiece, if_pos hc, run]
    · rfl

@[simp]
theorem lexes_blank : Lexes (' ' :: cs) ts ↔ Lexes cs ts := by
  refine (lexes_cons_blank (' ' :: cs.takeWhile isBlank) ?_).trans lexes_dropWhile_isBlank
  rw [firstPiece, if_pos (by decide), run]

theorem lexes_blanks (n : Nat) : Lexes (List.replicate n ' ' ++ cs) ts ↔ Lexes cs ts := by
  induction n with
  | zero => rfl
  | succ n ih => rw [List.replicate_succ, List.cons_append, lexes_blank, ih]

/-- The line ends. -/
def isFeed (c : Char) : Bool := c = '\n'

theorem firstPiece_newline (cs : List Char) :
    firstPiece '\n' cs = (.token .newline ('\n' :: cs.takeWhile isFeed), cs.dropWhile isFeed) := by
  rw [firstPiece, if_neg (by decide), if_pos rfl]
  rfl

/-- Line ends in a row are one newline. -/
theorem Lexes.feed (h : Lexes ('\n' :: cs) ts) : Lexes ('\n' :: '\n' :: cs) ts := by
  have htail : ('\n' :: cs).dropWhile isFeed = cs.dropWhile isFeed := by
    rw [List.dropWhile_cons, if_pos (by decide)]
  constructor
  · rw [← h.tokens, pieces, firstPiece_newline, htail, pieces, firstPiece_newline]
    rfl
  · have hclean := h.clean
    rw [pieces, firstPiece_newline] at hclean ⊢
    rw [htail]
    exact List.forall_mem_cons.2 ⟨by simp, (List.forall_mem_cons.1 hclean).2⟩

/-! ## Tokens and their spelling -/

namespace Token

def spelling : Token → List Char
  | keyword k => k.text.toList
  | mark m => m.text.toList
  | int n => (toString n).toList
  | value name => '%' :: name.toList
  | symbol name => '@' :: name.toList
  | ident name => name.toList
  | newline => ['\n']

/-- What the lexer makes tokens of. -/
def Valid : Token → Prop
  | int n => isInt64 n = true
  | value name => name.toList ≠ [] ∧ ∀ c ∈ name.toList, isWordChar c = true
  | symbol name => ∃ c cs, name.toList = c :: cs ∧ isWordStart c = true ∧
      ∀ x ∈ cs, isWordChar x = true
  | ident name => (∃ c cs, name.toList = c :: cs ∧ isWordStart c = true ∧
      ∀ x ∈ cs, isWordChar x = true) ∧ Keyword.ofText? name = none
  | _ => True

/-- The characters that would prolong the token. -/
def bars : Token → Char → Bool
  | keyword _ | value _ | symbol _ | ident _ => isWordChar
  | int _ => isDigit
  | mark .less => fun c => c = '-'
  | mark _ => fun _ => false
  | newline => isFeed

end Token

/-! ## Spelling is undone -/

theorem isWordStart_facts {c : Char} (h : isWordStart c = true) :
    isBlank c = false ∧ c ≠ '\n' := by
  constructor
  · cases hb : isBlank c with
    | false => rfl
    | true =>
      simp only [isBlank, Bool.or_eq_true, decide_eq_true_eq] at hb
      rcases hb with (rfl | rfl) | rfl <;> exact absurd h (by decide)
  · rintro rfl
    exact absurd h (by decide)

theorem isDigit_facts {c : Char} (h : isDigit c = true) :
    isBlank c = false ∧ c ≠ '\n' ∧ isWordStart c = false := by
  simp only [isDigit, Bool.and_eq_true, decide_eq_true_eq] at h
  have hle : '0'.val ≤ c.val ∧ c.val ≤ '9'.val := h
  refine ⟨?_, ?_, ?_⟩
  · cases hb : isBlank c with
    | false => rfl
    | true =>
      simp only [isBlank, Bool.or_eq_true, decide_eq_true_eq] at hb
      rcases hb with (rfl | rfl) | rfl <;> exact absurd h (by decide)
  · rintro rfl
    exact absurd h (by decide)
  · cases hs : isWordStart c with
    | false => rfl
    | true =>
      simp only [isWordStart, Bool.or_eq_true, Bool.and_eq_true, decide_eq_true_eq] at hs
      rcases hs with (hs | hs) | rfl
      · exact absurd (UInt32.le_trans (show 'a'.val ≤ c.val from hs.1) hle.2) (by decide)
      · exact absurd (UInt32.le_trans (show 'A'.val ≤ c.val from hs.1) hle.2) (by decide)
      · exact absurd h (by decide)

theorem firstPiece_word {c : Char} (hc : isWordStart c = true) (cs : List Char) :
    firstPiece c cs = run isWordChar wordPiece c cs := by
  obtain ⟨hb, hn⟩ := isWordStart_facts hc
  rw [firstPiece, if_neg (by simp [hb]), if_neg hn, if_pos hc]

theorem firstPiece_digit {c : Char} (hc : isDigit c = true) (cs : List Char) :
    firstPiece c cs = run isDigit intPiece c cs := by
  obtain ⟨hb, hn, hw⟩ := isDigit_facts hc
  rw [firstPiece, if_neg (by simp [hb]), if_neg hn, if_neg (by simp [hw]), if_pos hc]

theorem lexes_word {c : Char} {word : List Char} (hc : isWordStart c = true)
    (hword : ∀ x ∈ word, isWordChar x = true) (hrest : Avoids isWordChar rest) {t : Token}
    (ht : wordPiece (c :: word) = .token t (c :: word)) (h : Lexes rest ts) :
    Lexes (c :: word ++ rest) (t :: ts) := by
  rw [List.cons_append]
  refine Lexes.token (c :: word) rest ?_ h
  rw [firstPiece_word hc, run_append hword hrest, ht]

/-! ### Numbers -/

theorem isDigit_of_isDigit {c : Char} (h : c.isDigit = true) : isDigit c = true := by
  rw [Char.isDigit, Bool.and_eq_true, decide_eq_true_eq, decide_eq_true_eq] at h
  rw [isDigit, Bool.and_eq_true, decide_eq_true_eq, decide_eq_true_eq]
  exact h

theorem isDigit_toDigits {n : Nat} {c : Char} (h : c ∈ Nat.toDigits 10 n) : isDigit c = true :=
  isDigit_of_isDigit (Nat.isDigit_of_mem_toDigits (by decide) (by decide) h)

theorem decimal_toDigits (n : Nat) : decimal (Nat.toDigits 10 n) = n :=
  Nat.ofDigitChars_toDigits (by decide) (by decide)

theorem toDigits_inj {m n : Nat} (h : Nat.toDigits 10 m = Nat.toDigits 10 n) : m = n := by
  rw [← decimal_toDigits m, h, decimal_toDigits]

/-- The digits of a number, the first one apart. -/
theorem exists_toDigits (n : Nat) : ∃ c ds, Nat.toDigits 10 n = c :: ds ∧ isDigit c = true ∧
    ∀ x ∈ ds, isDigit x = true := by
  obtain ⟨c, ds, h⟩ := List.exists_cons_of_ne_nil (Nat.toDigits_ne_nil (n := n) (b := 10))
  refine ⟨c, ds, h, isDigit_toDigits (h ▸ List.mem_cons_self), fun x hx => ?_⟩
  exact isDigit_toDigits (h ▸ List.mem_cons_of_mem _ hx)

theorem literalValue_digits {c : Char} {ds : List Char} (hc : isDigit c = true) :
    literalValue (c :: ds) = decimal (c :: ds) := by
  have hne : c ≠ '-' := by
    rintro rfl
    exact absurd hc (by decide)
  exact literalValue.eq_2 _ fun digits heq => hne (List.cons.inj heq).1

theorem lexes_int {n : Int} (hn : isInt64 n = true) (hrest : Avoids isDigit rest)
    (h : Lexes rest ts) : Lexes ((toString n).toList ++ rest) (.int n :: ts) := by
  cases n with
  | ofNat n =>
    obtain ⟨c, ds, hdigits, hc, hds⟩ := exists_toDigits n
    have hlit : literalValue (c :: ds) = n := by
      rw [literalValue_digits hc, ← hdigits, decimal_toDigits]
    have htext : (toString (Int.ofNat n)).toList = c :: ds := by
      rw [← hdigits]
      exact String.toList_ofList
    rw [htext, List.cons_append]
    refine Lexes.token (c :: ds) rest ?_ h
    rw [firstPiece_digit hc, run_append hds hrest, intPiece, hlit]
    exact congrArg (·, rest) (if_pos hn)
  | negSucc n =>
    obtain ⟨c, ds, hdigits, hc, hds⟩ := exists_toDigits (n + 1)
    have hlit : literalValue ('-' :: c :: ds) = .negSucc n := by
      rw [literalValue, ← hdigits, decimal_toDigits]
      rfl
    have htext : (toString (Int.negSucc n)).toList = '-' :: c :: ds := by
      rw [← hdigits]
      show ("-" ++ Nat.repr (n + 1)).toList = _
      rw [String.toList_append]
      exact congrArg ('-' :: ·) String.toList_ofList
    rw [htext, List.cons_append]
    refine Lexes.token ('-' :: c :: ds) rest ?_ h
    have hfirst : firstPiece '-' (c :: ds ++ rest) = run isDigit intPiece '-' (c :: ds ++ rest) := by
      rw [firstPiece, if_neg (by decide), if_neg (by decide), if_neg (by decide),
        if_neg (by decide), if_neg (by simp), if_pos (by simp [hc])]
    rw [hfirst, run_append (List.forall_mem_cons.2 ⟨hc, hds⟩) hrest, intPiece,
      hlit]
    exact congrArg (·, rest) (if_pos hn)

/-! ### Names, words and marks -/

theorem lexes_value {name : String} (hne : name.toList ≠ [])
    (hname : ∀ c ∈ name.toList, isWordChar c = true) (hrest : Avoids isWordChar rest)
    (h : Lexes rest ts) : Lexes ('%' :: name.toList ++ rest) (.value name :: ts) := by
  obtain ⟨c, cs, hcs⟩ := List.exists_cons_of_ne_nil hne
  rw [List.cons_append]
  refine Lexes.token ('%' :: name.toList) rest ?_ h
  have hc : isWordChar c = true := hname c (hcs ▸ List.mem_cons_self)
  have hfirst : firstPiece '%' (name.toList ++ rest) =
      run isWordChar valuePiece '%' (name.toList ++ rest) := by
    rw [firstPiece, if_neg (by decide), if_neg (by decide), if_neg (by decide),
      if_neg (by decide), if_neg (by simp), if_neg (by simp), if_pos (by simp [hcs, hc])]
  rw [hfirst, run_append hname hrest, valuePiece, List.tail_cons, String.ofList_toList]

theorem lexes_symbol {name : String} {c : Char} {cs : List Char} (hcs : name.toList = c :: cs)
    (hc : isWordStart c = true) (hword : ∀ x ∈ cs, isWordChar x = true)
    (hrest : Avoids isWordChar rest) (h : Lexes rest ts) :
    Lexes ('@' :: name.toList ++ rest) (.symbol name :: ts) := by
  rw [List.cons_append]
  refine Lexes.token ('@' :: name.toList) rest ?_ h
  have hfirst : firstPiece '@' (name.toList ++ rest) =
      run isWordChar symbolPiece '@' (name.toList ++ rest) := by
    rw [firstPiece, if_neg (by decide), if_neg (by decide), if_neg (by decide),
      if_neg (by decide), if_neg (by simp), if_neg (by simp), if_neg (by simp),
      if_pos (by simp [hcs, hc])]
  have hname : ∀ x ∈ name.toList, isWordChar x = true := by
    rw [hcs]
    exact List.forall_mem_cons.2 ⟨by rw [isWordChar, hc, Bool.true_or], hword⟩
  rw [hfirst, run_append hname hrest, symbolPiece, List.tail_cons, String.ofList_toList]

theorem Keyword.ofText?_text (k : Keyword) : Keyword.ofText? k.text = some k := by
  cases k <;> rfl

/-- A keyword is a word. -/
theorem Keyword.text_word (k : Keyword) : ∃ c cs, k.text.toList = c :: cs ∧
    isWordStart c = true ∧ ∀ x ∈ cs, isWordChar x = true := by
  cases k <;> exact ⟨_, _, rfl, by decide, List.all_eq_true.1 (by decide)⟩

theorem lexes_keyword (k : Keyword) (hrest : Avoids isWordChar rest) (h : Lexes rest ts) :
    Lexes (k.text.toList ++ rest) (.keyword k :: ts) := by
  obtain ⟨c, cs, hcs, hc, hword⟩ := k.text_word
  rw [hcs]
  refine lexes_word hc hword hrest ?_ h
  rw [wordPiece, ← hcs, String.ofList_toList, k.ofText?_text]

theorem lexes_ident {name : String} {c : Char} {cs : List Char} (hcs : name.toList = c :: cs)
    (hc : isWordStart c = true) (hword : ∀ x ∈ cs, isWordChar x = true)
    (hkey : Keyword.ofText? name = none) (hrest : Avoids isWordChar rest) (h : Lexes rest ts) :
    Lexes (name.toList ++ rest) (.ident name :: ts) := by
  have hword := lexes_word (t := .ident name) hc hword hrest
    (by rw [wordPiece, ← hcs, String.ofList_toList, hkey]) h
  rwa [hcs]

theorem lexes_mark (m : Mark) (hrest : Avoids (Token.mark m).bars rest) (h : Lexes rest ts) :
    Lexes (m.text.toList ++ rest) (.mark m :: ts) := by
  cases m
  case arrow => exact Lexes.token ['<', '-'] rest rfl h
  case less =>
    refine Lexes.token (c := '<') ['<'] rest ?_ h
    have hne : ¬ (rest.head? = some '-') := fun heq => by simpa [Token.bars] using hrest '-' heq
    rw [firstPiece, if_neg (by decide), if_neg (by decide), if_neg (by decide),
      if_neg (by decide), if_neg (by simp), if_neg (by simp), if_neg (by simp),
      if_neg (by simp), if_neg (by simp [hne])]
    rfl
  all_goals exact Lexes.token _ rest rfl h

/-- No mark but one is prolonged by anything. -/
theorem lexes_sign (m : Mark) (hm : m ≠ .less) (h : Lexes rest ts) :
    Lexes (m.text.toList ++ rest) (.mark m :: ts) := by
  refine lexes_mark m (fun c _ => ?_) h
  cases m <;> first | rfl | exact absurd rfl hm

theorem lexes_newline (hrest : Avoids isFeed rest) (h : Lexes rest ts) :
    Lexes ('\n' :: rest) (.newline :: ts) := by
  refine Lexes.token ['\n'] rest ?_ h
  exact run_append (w := []) nofun hrest

/-- A token that is spelled out is lexed, if nothing prolongs it. -/
theorem lexes_token {t : Token} (ht : t.Valid) (hrest : Avoids t.bars rest) (h : Lexes rest ts) :
    Lexes (t.spelling ++ rest) (t :: ts) := by
  cases t with
  | keyword k => exact lexes_keyword k hrest h
  | mark m => exact lexes_mark m hrest h
  | int n => exact lexes_int ht hrest h
  | value name => exact lexes_value ht.1 ht.2 hrest h
  | symbol name =>
    obtain ⟨c, cs, hcs, hc, hword⟩ := ht
    exact lexes_symbol hcs hc hword hrest h
  | ident name =>
    obtain ⟨⟨c, cs, hcs, hc, hword⟩, hkey⟩ := ht
    exact lexes_ident hcs hc hword hkey hrest h
  | newline => exact lexes_newline hrest h

/-! ## What is lexed can be spelled -/

/-- The token of the piece, if it is one, is valid. -/
def Piece.Valid (p : Piece) : Prop := ∀ t text, p = .token t text → t.Valid

theorem all_run {p : Char → Bool} (cs : List Char) : ∀ x ∈ cs.takeWhile p, p x = true :=
  List.all_eq_true.1 (List.all_takeWhile)

theorem valid_wordPiece {c : Char} {word : List Char} (hc : isWordStart c = true)
    (hword : ∀ x ∈ word, isWordChar x = true) : (wordPiece (c :: word)).Valid := by
  intro t text h
  rw [wordPiece] at h
  split at h
  · obtain ⟨rfl, -⟩ := Piece.token.inj h
    trivial
  · next hkey =>
    obtain ⟨rfl, -⟩ := Piece.token.inj h
    exact ⟨⟨c, word, String.toList_ofList, hc, hword⟩, hkey⟩

theorem valid_intPiece (lit : List Char) : (intPiece lit).Valid := by
  intro t text h
  rw [intPiece] at h
  split at h
  · next hn =>
    obtain ⟨rfl, -⟩ := Piece.token.inj h
    exact hn
  · cases h

theorem valid_charPiece (c : Char) : (charPiece c).Valid := by
  intro t text h
  rw [charPiece] at h
  split at h
  · obtain ⟨rfl, -⟩ := Piece.token.inj h
    trivial
  · cases h

theorem valid_firstPiece (c : Char) (rest : List Char) : (firstPiece c rest).1.Valid := by
  unfold firstPiece
  split
  · nofun
  split
  · intro t text h
    obtain ⟨rfl, -⟩ := Piece.token.inj h
    trivial
  split
  · next hc => exact valid_wordPiece hc (all_run rest)
  split
  · exact valid_intPiece _
  split
  · nofun
  split
  · exact valid_intPiece _
  split
  · next hc =>
    intro t text h
    obtain ⟨rfl, -⟩ := Piece.token.inj h
    obtain ⟨-, hc⟩ := Bool.and_eq_true_iff.1 hc
    cases rest with
    | nil => cases hc
    | cons x xs =>
      have hx : isWordChar x = true := hc
      refine ⟨?_, ?_⟩ <;> simp only [List.tail_cons, String.toList_ofList]
      · rw [List.takeWhile_cons, hx]
        exact List.cons_ne_nil _ _
      · exact all_run _
  split
  · next hc =>
    intro t text h
    obtain ⟨rfl, -⟩ := Piece.token.inj h
    obtain ⟨-, hc⟩ := Bool.and_eq_true_iff.1 hc
    cases rest with
    | nil => cases hc
    | cons x xs =>
      have hx : isWordStart x = true := hc
      have hx' : isWordChar x = true := by rw [isWordChar, hx, Bool.true_or]
      refine ⟨x, xs.takeWhile isWordChar, ?_, hx, all_run _⟩
      rw [List.tail_cons, String.toList_ofList, List.takeWhile_cons, hx']
      rfl
  split
  · intro t text h
    obtain ⟨rfl, -⟩ := Piece.token.inj h
    trivial
  · exact valid_charPiece c

theorem valid_pieces (cs : List Char) : ∀ p ∈ pieces cs, p.Valid := by
  fun_induction pieces cs with
  | case1 => exact nofun
  | case2 c rest ih => exact List.forall_mem_cons.2 ⟨valid_firstPiece c rest, ih⟩

theorem valid_of_lex (source : String) : ∀ x ∈ (lex source).tokens, x.token.Valid := by
  intro x hx
  have hmem : x.token ∈ (pieces source.toList).filterMap Piece.token? := by
    rw [← tokens_lex]
    exact List.mem_map_of_mem hx
  obtain ⟨p, hp, ht⟩ := List.mem_filterMap.1 hmem
  cases p with
  | token t text =>
    rw [← Option.some.inj ht]
    exact valid_pieces _ _ hp t text rfl
  | stray text => cases ht
  | blank text => cases ht

end AsyncOrder
