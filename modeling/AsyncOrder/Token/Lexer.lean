import AsyncOrder.Text.Span
import AsyncOrder.Text.Quoted
import AsyncOrder.Token.Basic

/-!
# From text to tokens

`pieces` cuts a text into consecutive non-empty stretches, each of which is a token, a blank
(spaces, tabs, carriage returns, or a `//` comment up to its line end) or stray.  Gluing the
stretches gives the text back:

    (pieces cs).flatMap Piece.text = cs

A token takes the longest text it can.  A word spelled like a keyword is that keyword.  A stray
stretch is one character where no token starts, or a whole integer literal outside the 64-bit
range.  Stray stretches are reported and skipped; `lex` goes on behind them.
-/

namespace AsyncOrder

/-! ## Character classes (ASCII only) -/

def isBlank (c : Char) : Bool := c = ' ' || c = '\t' || c = '\r'

def isDigit (c : Char) : Bool := '0' ≤ c && c ≤ '9'

def isWordStart (c : Char) : Bool :=
  ('a' ≤ c && c ≤ 'z') || ('A' ≤ c && c ≤ 'Z') || c = '_'

def isWordChar (c : Char) : Bool := isWordStart c || isDigit c

/-! ## One piece -/

inductive Piece where
  | token (t : Token) (text : List Char)
  | stray (text : List Char)
  | blank (text : List Char)
deriving DecidableEq, Repr

namespace Piece

def text : Piece → List Char
  | token _ cs => cs
  | stray cs => cs
  | blank cs => cs

/-- The token of a piece that is one. -/
def token? : Piece → Option Token
  | token t _ => some t
  | _ => none

end Piece

/-- The number that a row of decimal digits denotes. -/
def decimal (digits : List Char) : Nat :=
  digits.foldl (fun n c => 10 * n + (c.toNat - '0'.toNat)) 0

/-- The number that an integer literal denotes. -/
def literalValue : List Char → Int
  | '-' :: digits => -(decimal digits)
  | digits => decimal digits

/-- The 64-bit integers. -/
def isInt64 (n : Int) : Bool := -0x8000000000000000 ≤ n && n < 0x8000000000000000

def intPiece (lit : List Char) : Piece :=
  if isInt64 (literalValue lit) then .token (.int (literalValue lit)) lit else .stray lit

def wordPiece (word : List Char) : Piece :=
  match Keyword.ofText? (String.ofList word) with
  | some k => .token (.keyword k) word
  | none => .token (.ident (String.ofList word)) word

/-- `%name` -/
def valuePiece (text : List Char) : Piece :=
  .token (.value (String.ofList text.tail)) text

/-- `@name` -/
def symbolPiece (text : List Char) : Piece :=
  .token (.symbol (String.ofList text.tail)) text

/-- The mark that the single character `c` stands for. -/
def Mark.ofChar? (c : Char) : Option Mark :=
  if c = '=' then some .equals
  else if c = ',' then some .comma
  else if c = ':' then some .colon
  else if c = '(' then some .lparen
  else if c = ')' then some .rparen
  else if c = '[' then some .lbracket
  else if c = ']' then some .rbracket
  else if c = '\x7b' then some .lbrace
  else if c = '\x7d' then some .rbrace
  else if c = '<' then some .less
  else if c = '>' then some .greater
  else none

/-- A single character: a mark, or stray. -/
def charPiece (c : Char) : Piece :=
  match Mark.ofChar? c with
  | some m => .token (.mark m) [c]
  | none => .stray [c]

/-- `c` and the characters of class `p` behind it, made into a piece. -/
def run (p : Char → Bool) (make : List Char → Piece) (c : Char) (rest : List Char) :
    Piece × List Char :=
  (make (c :: rest.takeWhile p), rest.dropWhile p)

/-- The piece that `c :: rest` starts with, and the text after it. -/
def firstPiece (c : Char) (rest : List Char) : Piece × List Char :=
  if isBlank c then run isBlank .blank c rest
  else if c = '\n' then run (· = '\n') (.token .newline) c rest
  else if isWordStart c then run isWordChar wordPiece c rest
  else if isDigit c then run isDigit intPiece c rest
  else if c = '/' && rest.head? = some '/' then run (· ≠ '\n') .blank c rest
  else if c = '-' && rest.head?.any isDigit then run isDigit intPiece c rest
  else if c = '%' && rest.head?.any isWordChar then run isWordChar valuePiece c rest
  else if c = '@' && rest.head?.any isWordStart then run isWordChar symbolPiece c rest
  else if c = '<' && rest.head? = some '-' then (.token (.mark .arrow) [c, '-'], rest.tail)
  else (charPiece c, rest)

theorem length_run_le (p : Char → Bool) (make : List Char → Piece) (c : Char)
    (rest : List Char) : (run p make c rest).2.length ≤ rest.length :=
  (List.dropWhile_suffix p).length_le

theorem length_firstPiece_le (c : Char) (rest : List Char) :
    (firstPiece c rest).2.length ≤ rest.length := by
  unfold firstPiece
  repeat' split
  all_goals first
    | exact length_run_le _ _ _ _
    | simp

/-! ## The whole text -/

def pieces : List Char → List Piece
  | [] => []
  | c :: rest => (firstPiece c rest).1 :: pieces (firstPiece c rest).2
termination_by cs => cs.length
decreasing_by
  have := length_firstPiece_le c rest
  simp only [List.length_cons]
  omega

/-- Bytes of the UTF-8 form of `cs`. -/
def utf8Length (cs : List Char) : Nat :=
  cs.foldl (fun n c => n + c.utf8Size) 0

/-- Each piece with its span, the first one starting at byte `start`. -/
def placed (start : Nat) : List Piece → List (Piece × Span)
  | [] => []
  | p :: ps =>
    let stop := start + utf8Length p.text
    (p, ⟨start, stop⟩) :: placed stop ps

/-- A token where it stands in the source. -/
structure Lexeme where
  token : Token
  span : Span
deriving DecidableEq, Repr

/-- A stretch of the source that is no token. -/
structure Stray where
  text : List Char
  span : Span
deriving DecidableEq, Repr

def Stray.message (s : Stray) : String :=
  "unexpected character: " ++ Text.quoted s.text

structure Lexed where
  tokens : List Lexeme
  strays : List Stray

def lex (source : String) : Lexed :=
  let placed := placed 0 (pieces source.toList)
  { tokens := placed.filterMap fun
      | (.token t _, span) => some ⟨t, span⟩
      | _ => none
    strays := placed.filterMap fun
      | (.stray text, span) => some ⟨text, span⟩
      | _ => none }

end AsyncOrder
