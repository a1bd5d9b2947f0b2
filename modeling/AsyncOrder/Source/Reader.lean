import AsyncOrder.Token.Lexer
import AsyncOrder.Source.Basic

/-!
# Reading by trial

A `Reader` takes tokens from an `Input`, or fails.  A reader that fails may have taken some: what
is tried in its place starts where it started (`orElse`, `orNot`, `many`, `more`).

Where a token is asked for in vain this is noted.  The note that is furthest on stays, also when
readers go back behind it; at one place all that was asked for is noted, in order and without
repetition:

    r.merge s = the one further on, or r with what s expected too
-/

namespace AsyncOrder.Source

/-- What a grammar rule asks of the next token. -/
inductive Expected where
  | terminal (t : Terminal)
  | endOfInput
deriving DecidableEq, Repr

/-- A place, and what was asked for there in vain. -/
structure Refusal where
  /-- Number of tokens before the place. -/
  pos : Nat
  /-- `none` is the end of the input. -/
  found : Option Lexeme
  expected : List Expected
deriving DecidableEq, Repr

def Refusal.merge (r s : Refusal) : Refusal :=
  if s.pos < r.pos then r
  else if r.pos < s.pos then s
  else { r with expected := r.expected ++ s.expected.filter (· ∉ r.expected) }

/-- A place in the input. -/
structure Cursor where
  /-- Number of tokens that have been read. -/
  pos : Nat
  rest : List Lexeme
  /-- End of the last token read. -/
  stop : Nat

namespace Cursor

/-- Start of the next token, or the end of the last one when no token is left. -/
def start (c : Cursor) : Nat := (c.rest.head?.map (·.span.start)).getD c.stop

def refusal (c : Cursor) (e : Expected) : Refusal := ⟨c.pos, c.rest.head?, [e]⟩

end Cursor

structure Input where
  cursor : Cursor
  /-- Of all that was asked for in vain what is furthest on. -/
  furthest : Option Refusal

namespace Input

/-- Where a source of `size` bytes begins. -/
def ofTokens (size : Nat) (tokens : List Lexeme) : Input := ⟨⟨0, tokens, size⟩, none⟩

/-- `e` was asked for in vain. -/
def miss (i : Input) (e : Expected) : Input :=
  let here := i.cursor.refusal e
  { i with furthest := some ((i.furthest.map (·.merge here)).getD here) }

/-- Back, or on, to `c`; what was noted stays. -/
def moveTo (i : Input) (c : Cursor) : Input := { i with cursor := c }

end Input

def Reader (α : Type) : Type := Input → Option α × Input

namespace Reader

variable {α β γ : Type}

/-- A token of class `t`. -/
def one (t : Terminal) : Reader Lexeme := fun i =>
  match i.cursor.rest with
  | x :: rest =>
    if x.token.terminal = t then (some x, i.moveTo ⟨i.cursor.pos + 1, rest, x.span.stop⟩)
    else (none, i.miss (.terminal t))
  | [] => (none, i.miss (.terminal t))

def endOfInput : Reader Unit := fun i =>
  match i.cursor.rest with
  | [] => (some (), i)
  | _ :: _ => (none, i.miss .endOfInput)

def failure : Reader α := fun i => (none, i)

def map (f : α → β) (r : Reader α) : Reader β := fun i =>
  match r i with
  | (some a, j) => (some (f a), j)
  | (none, j) => (none, j)

/-- `r`, and behind it `s`. -/
def seq (f : α → β → γ) (r : Reader α) (s : Reader β) : Reader γ := fun i =>
  match r i with
  | (some a, j) => s.map (f a) j
  | (none, j) => (none, j)

/-- `r`, or if it fails `s`, from where `r` began. -/
def orElse (r s : Reader α) : Reader α := fun i =>
  match r i with
  | (some a, j) => (some a, j)
  | (none, j) => s (j.moveTo i.cursor)

/-- `r`, or nothing, and then no token is taken; nothing counts as `a`. -/
def orNot (a : α) (r : Reader α) : Reader α := fun i =>
  match r i with
  | (some a, j) => (some a, j)
  | (none, j) => (some a, j.moveTo i.cursor)

/-- The value is told where the reader began and ended. -/
def withSpan (f : α → Span → β) (r : Reader α) : Reader β := fun i =>
  match r i with
  | (some a, j) => (some (f a ⟨i.cursor.start, j.cursor.stop⟩), j)
  | (none, j) => (none, j)

/-! ## Repetition

Each round takes a token, so with a round for each token that is left, and one more, there are
enough.  Values are folded from the right. -/

def manyUpTo (f : α → β → β) (b : β) (r : Reader α) : Nat → Reader β
  | 0, i => (some b, i)
  | n + 1, i =>
    match r i with
    | (some a, j) => (manyUpTo f b r n).map (f a) j
    | (none, j) => (some b, j.moveTo i.cursor)

/-- `r`, as often as it succeeds. -/
def many (f : α → β → β) (b : β) (r : Reader α) : Reader β := fun i =>
  manyUpTo f b r (i.cursor.rest.length + 1) i

def moreUpTo (trailing : Bool) (f : α → β → β) (b : β) (separator : Reader γ) (r : Reader α) :
    Nat → Reader β
  | 0, i => (some b, i)
  | n + 1, i =>
    match separator i with
    | (some _, j) =>
      match r j with
      | (some a, k) => (moreUpTo trailing f b separator r n).map (f a) k
      | (none, k) => (some b, k.moveTo (if trailing then j.cursor else i.cursor))
    | (none, j) => (some b, j.moveTo i.cursor)

/-- Behind a first item, others, each behind a separator.  A separator behind which no item stands
is taken only if `trailing`. -/
def more (trailing : Bool) (f : α → β → β) (b : β) (separator : Reader γ) (r : Reader α) :
    Reader β := fun i =>
  moreUpTo trailing f b separator r (i.cursor.rest.length + 1) i

end Reader

end AsyncOrder.Source
