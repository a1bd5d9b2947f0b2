/-!
# JSON

Values made of texts, lists and records, and their text over several lines: two blanks of
indentation per level, one item or field a line, and `[]` for an empty list.  In a text a quote
and a backslash get a backslash in front, control characters are escaped, and all other
characters stand for themselves.
-/

namespace AsyncOrder.Text

inductive Json where
  | str (s : String)
  | arr (items : List Json)
  | obj (fields : List (String × Json))

namespace Json

/-! ## Texts -/

/-- `n` in hexadecimal, with at least four digits. -/
def hex4 (n : Nat) : String :=
  let digits := Nat.toDigits 16 n
  String.ofList (List.replicate (4 - digits.length) '0' ++ digits)

def escapedChar (c : Char) : String :=
  if c = '"' then "\\\""
  else if c = '\\' then "\\\\"
  else if c = '\x08' then "\\b"
  else if c = '\x0c' then "\\f"
  else if c = '\n' then "\\n"
  else if c = '\r' then "\\r"
  else if c = '\t' then "\\t"
  else if c.toNat < 32 then "\\u" ++ hex4 c.toNat
  else String.singleton c

def escaped (s : String) : String := "\"" ++ String.join (s.toList.map escapedChar) ++ "\""

/-! ## Values -/

/-- A line break and the indentation of a level. -/
def newline (level : Nat) : String := "\n" ++ String.join (List.replicate level "  ")

/-- Items or fields between brackets, each on a line of its own. -/
def bracketed (left right : String) (level : Nat) (items : List String) : String :=
  if items.isEmpty then left ++ right
  else left ++ ",".intercalate (items.map (newline (level + 1) ++ ·)) ++ newline level ++ right

mutual

def prettyAt (level : Nat) : Json → String
  | str s => escaped s
  | arr items => bracketed "[" "]" level (prettyItems (level + 1) items)
  | obj fields => bracketed "\x7b" "\x7d" level (prettyFields (level + 1) fields)

def prettyItems (level : Nat) : List Json → List String
  | [] => []
  | item :: items => prettyAt level item :: prettyItems level items

def prettyFields (level : Nat) : List (String × Json) → List String
  | [] => []
  | (name, value) :: fields =>
    (escaped name ++ ": " ++ prettyAt level value) :: prettyFields level fields

end

def pretty (j : Json) : String := prettyAt 0 j

end Json

end AsyncOrder.Text
