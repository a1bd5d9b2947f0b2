import AsyncOrder.Text.Unseen

/-!
# Quoted text

`quoted cs` shows the characters `cs` between double quotes on one line.  A quote and a
backslash get a backslash in front; NUL, tab, line feed and carriage return have the short
escapes `\0 \t \n \r`; every other character without a glyph of its own (`isBare`) is written
as its code point in lower-case hexadecimal.  All else stands for itself.
-/

namespace AsyncOrder.Text

/-- Lower-case hexadecimal digits of `n`, without leading zeros. -/
def hexDigits (n : Nat) : String :=
  String.ofList (Nat.toDigits 16 n)

def quotedChar (c : Char) : String :=
  if c = '"' then "\\\""
  else if c = '\\' then "\\\\"
  else if c = '\x00' then "\\0"
  else if c = '\t' then "\\t"
  else if c = '\n' then "\\n"
  else if c = '\r' then "\\r"
  else if isBare c then "\\u\x7b" ++ hexDigits c.toNat ++ "\x7d"
  else String.singleton c

def quoted (cs : List Char) : String :=
  "\"" ++ String.join (cs.map quotedChar) ++ "\""

end AsyncOrder.Text
