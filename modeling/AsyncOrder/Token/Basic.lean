/-!
# Tokens

The words of the program text: keywords, punctuation marks, 64-bit integers, `%value` and
`@symbol` names, bare identifiers (memory spaces) and newlines, which separate statements.

A `Terminal` is a class of tokens, all that a grammar rule can ask for.  `Token.terminal` gives
the class of a token.
-/

namespace AsyncOrder

inductive Keyword where
  | func | upTo | step | iter | otherwise | ins | outs | ids | args
  | const | alloc | dealloc | copy | transform | muli | addi | apply | yield
  | compute | transfer | put | get | join | loop | parallel | branch
  | launch | segment | herd | finish
  | token | index | memref
deriving DecidableEq, Repr

namespace Keyword

def text : Keyword → String
  | func => "func"
  | upTo => "to"
  | step => "step"
  | iter => "iter"
  | otherwise => "else"
  | ins => "ins"
  | outs => "outs"
  | ids => "ids"
  | args => "args"
  | const => "const"
  | alloc => "alloc"
  | dealloc => "dealloc"
  | copy => "copy"
  | transform => "transform"
  | muli => "muli"
  | addi => "addi"
  | apply => "apply"
  | yield => "yield"
  | compute => "compute"
  | transfer => "transfer"
  | put => "put"
  | get => "get"
  | join => "join"
  | loop => "for"
  | parallel => "parallel"
  | branch => "if"
  | launch => "launch"
  | segment => "segment"
  | herd => "herd"
  | finish => "end"
  | token => "token"
  | index => "index"
  | memref => "memref"

def all : List Keyword := [
  func, upTo, step, iter, otherwise, ins, outs, ids, args,
  const, alloc, dealloc, copy, transform, muli, addi, apply, yield,
  compute, transfer, put, get, join, loop, parallel, branch,
  launch, segment, herd, finish, token, index, memref]

/-- The keyword spelled `s`. -/
def ofText? (s : String) : Option Keyword :=
  all.find? fun k => k.text == s

end Keyword

/-- Punctuation. -/
inductive Mark where
  | arrow | equals | comma | colon
  | lparen | rparen | lbracket | rbracket | lbrace | rbrace | less | greater
deriving DecidableEq, Repr

def Mark.text : Mark → String
  | arrow => "<-"
  | equals => "="
  | comma => ","
  | colon => ":"
  | lparen => "("
  | rparen => ")"
  | lbracket => "["
  | rbracket => "]"
  | lbrace => "\x7b"
  | rbrace => "\x7d"
  | less => "<"
  | greater => ">"

/-- Names are kept without their sigil. -/
inductive Token where
  | keyword (k : Keyword)
  | mark (m : Mark)
  | int (n : Int)
  | value (name : String)
  | symbol (name : String)
  | ident (name : String)
  /-- One or more line ends in a row. -/
  | newline
deriving DecidableEq, Repr

inductive Terminal where
  | keyword (k : Keyword)
  | mark (m : Mark)
  | int
  | value
  | symbol
  | ident
  | newline
deriving DecidableEq, Repr

namespace Token

def terminal : Token → Terminal
  | keyword k => .keyword k
  | mark m => .mark m
  | int _ => .int
  | value _ => .value
  | symbol _ => .symbol
  | ident _ => .ident
  | newline => .newline

/-- How messages show the token.  Names show their class only. -/
def text : Token → String
  | keyword k => k.text
  | mark m => m.text
  | int n => toString n
  | value _ => "<value>"
  | symbol _ => "<symbol>"
  | ident _ => "<ident>"
  | newline => "<newline>"

end Token

end AsyncOrder
