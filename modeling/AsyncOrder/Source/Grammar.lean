import AsyncOrder.Source.Reader

/-!
# Grammars that are read by trial

A `Grammar` says which token sequences may stand at a place and what they mean.  Its one
nonterminal is the block.  `reader` reads it as it is written: an alternative is tried when the one
before has failed, an optional part or another round of a repetition is left out when it fails, and
each starts again where what failed had started.

Nothing here looks ahead, or makes sure that what is read first is right.
-/

namespace AsyncOrder.Source

variable {α β γ : Type}

/-- The functions say what the tokens mean. -/
inductive Grammar : Type → Type 1 where
  /-- One token of class `t`. -/
  | token {α : Type} (f : Lexeme → α) (t : Terminal) : Grammar α
  | seq {α β γ : Type} (f : α → β → γ) (x : Grammar α) (y : Grammar β) : Grammar γ
  | alt {α : Type} (x y : Grammar α) : Grammar α
  /-- `x`, or nothing, which means `a`. -/
  | optional {α : Type} (a : α) (x : Grammar α) : Grammar α
  /-- Any number of `x`, folded from the right. -/
  | many {α β : Type} (f : α → β → β) (b : β) (x : Grammar α) : Grammar β
  /-- What may stand behind an `x`: others, each behind a separator, and, if `trailing`, one more
  separator or none. -/
  | more {α β γ : Type} (trailing : Bool) (f : α → β → β) (b : β) (separator : Grammar γ)
      (x : Grammar α) : Grammar β
  /-- The value knows where it stands. -/
  | spanned {α β : Type} (f : α → Span → β) (x : Grammar α) : Grammar β
  | block {α : Type} (f : Block → α) : Grammar α

namespace Grammar

/-- Reads what the grammar says, and blocks by `body`. -/
-- the input is an argument, so that what is read can be computed from the equations
def reader (body : Reader Block) : {α : Type} → Grammar α → Reader α
  | _, token f t, i => (Reader.one t).map f i
  | _, seq f x y, i => Reader.seq f (x.reader body) (y.reader body) i
  | _, alt x y, i => Reader.orElse (x.reader body) (y.reader body) i
  | _, optional a x, i => Reader.orNot a (x.reader body) i
  | _, many f b x, i => Reader.many f b (x.reader body) i
  | _, more trailing f b separator x, i =>
    Reader.more trailing f b (separator.reader body) (x.reader body) i
  | _, spanned f x, i => Reader.withSpan f (x.reader body) i
  | _, block f, i => Reader.map f body i

/-! ## Combinations -/

abbrev word (k : Keyword) : Grammar Lexeme := token id (.keyword k)

abbrev mark (m : Mark) : Grammar Lexeme := token id (.mark m)

abbrev map (f : α → β) (x : Grammar α) : Grammar β := spanned (fun a _ => f a) x

/-- The value is `b`. -/
abbrev meaning (b : β) (x : Grammar α) : Grammar β := map (fun _ => b) x

/-- Both values count. -/
abbrev and (x : Grammar α) (y : Grammar β) : Grammar (α × β) := seq Prod.mk x y

/-- The value is that of the second part. -/
abbrev before (x : Grammar α) (y : Grammar β) : Grammar β := seq (fun _ b => b) x y

/-- The value is that of the first part. -/
abbrev upTo (x : Grammar α) (y : Grammar β) : Grammar α := seq (fun a _ => a) x y

abbrev between (opening closing : Mark) (x : Grammar α) : Grammar α :=
  ((mark opening).before x).upTo (mark closing)

/-- The first that can be read. -/
def choice : Grammar α → List (Grammar α) → Grammar α
  | x, [] => x
  | x, y :: ys => alt x (choice y ys)

/-- At least one. -/
abbrev many1 (x : Grammar α) : Grammar (List α) := seq List.cons x (many List.cons [] x)

/-- One item or more, with separators in between. -/
abbrev separated1 (trailing : Bool) (separator : Grammar β) (x : Grammar α) : Grammar (List α) :=
  seq List.cons x (more trailing List.cons [] separator x)

abbrev separated (trailing : Bool) (separator : Grammar β) (x : Grammar α) : Grammar (List α) :=
  optional [] (separated1 trailing separator x)

abbrev newline : Grammar Lexeme := token id .newline

abbrev newlines : Grammar (List Lexeme) := many List.cons [] newline

/-- Newlines separate the lines, and may stand before the first and behind the last. -/
abbrev lines (x : Grammar α) : Grammar (List α) :=
  (newlines.before (separated true (many1 newline) x)).upTo newlines

end Grammar

end AsyncOrder.Source
