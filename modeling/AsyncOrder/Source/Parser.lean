import AsyncOrder.Source.Grammar

/-!
# The grammar of program texts

    module    = lines of functions
    func      = 'func' SYMBOL '(' params ')' block         params = VALUE ':' type, ..
    type      = 'token' | 'index' | 'memref' '<' INT ',' IDENT '>'
    block     = '{' lines of statements '}'
    stmt      = [ VALUE, .. '=' ] op
    op        = one form per mnemonic (`Form.op`)
    deps      = [ '[' values ']' ]                         values = [ VALUE, .. ]
    access    = VALUE [ '[' values ']' ]
    bindings  = '(' [ VALUE '=' VALUE, .. ] ')'

Lists take no trailing comma.  Newlines separate statements and functions, and may stand before the
first and behind the last.
-/

namespace AsyncOrder.Source

variable {α : Type}

namespace Form

open Grammar

/-! ## Names and numbers -/

/-- The name a token carries. -/
def nameOf (x : Lexeme) : Name :=
  match x.token with
  | .value name | .symbol name | .ident name => ⟨name, x.span⟩
  | _ => ⟨"", x.span⟩

/-- The number an integer token carries. -/
def numberOf (x : Lexeme) : Int :=
  match x.token with
  | .int n => n
  | _ => 0

def value : Grammar Name := token nameOf .value

def symbol : Grammar Name := token nameOf .symbol

def ident : Grammar Name := token nameOf .ident

def int : Grammar Int := token numberOf .int

/-! ## Lists, accesses, types -/

def values : Grammar (List Name) := separated false (mark .comma) value

def parenthesized (x : Grammar α) : Grammar α := between .lparen .rparen x

/-- `[values]`; an absent list is empty. -/
def bracketed : Grammar (List Name) := optional [] (between .lbracket .rbracket values)

def access : Grammar Access := seq .mk value bracketed

def binding : Grammar Binding := seq .mk (value.upTo (mark .equals)) value

def bindings : Grammar (List Binding) := parenthesized (separated false (mark .comma) binding)

def memrefType : Grammar TypeExpr :=
  spanned (fun (rank, space) span => .memref rank space span)
    ((word .memref).before (between .less .greater ((int.upTo (mark .comma)).and ident)))

def typeExpr : Grammar TypeExpr :=
  choice (spanned (fun _ span => .token span) (word .token)) [
    spanned (fun _ span => .index span) (word .index),
    memrefType]

/-! ## The eighteen operations -/

def body : Grammar Block := .block id

def constOp : Grammar Op := map .const ((word .const).before int)

def allocOp : Grammar Op := map .alloc (((word .alloc).before (mark .colon)).before typeExpr)

def deallocOp : Grammar Op := map .dealloc ((word .dealloc).before value)

/-- Two values behind the mnemonic. -/
def binaryOp (k : Keyword) (make : Name → Name → Op) : Grammar Op :=
  seq make (((word k).before value).upTo (mark .comma)) value

def transformOp : Grammar Op :=
  seq .transform ((word .transform).before ((word .ins).before (parenthesized values)))
    ((word .outs).before (parenthesized values))

def applyOp : Grammar Op := map .apply ((word .apply).before (parenthesized values))

def yieldOp : Grammar Op := map .yield ((word .yield).before values)

def computeOp : Grammar Op := seq .compute ((word .compute).before bracketed) body

def transferOp : Grammar Op :=
  seq (fun (deps, dst) src => .transfer deps dst src)
    ((((word .transfer).before bracketed).and access).upTo (mark .arrow)) access

/-- A channel, the dependencies and a buffer behind the mnemonic. -/
def channelOp (k : Keyword) (make : Name → List Name → Access → Op) : Grammar Op :=
  seq (fun (channel, deps) buffer => make channel deps buffer)
    (((word k).before symbol).and bracketed) access

def joinOp : Grammar Op := map .join ((word .join).before bracketed)

def loopKind : Grammar LoopKind :=
  choice ((word .loop).meaning .sequential) [(word .parallel).meaning .parallel]

def loopOp : Grammar Op :=
  seq (fun (((((kind, var), lower), upper), step), carried) body =>
      .loop kind var lower upper step carried body)
    ((((((((loopKind.and value).upTo (mark .equals)).and value).upTo (word .upTo)).and value).upTo
      (word .step)).and value).and (optional [] ((word .iter).before bindings)))
    body

def branchOp : Grammar Op :=
  seq (fun (cond, thenBody) elseBody => .branch cond thenBody elseBody)
    ((((word .branch).before value).and body).upTo (word .otherwise)) body

def level : Grammar Level :=
  choice ((word .launch).meaning .launch)
    [(word .segment).meaning .segment, (word .herd).meaning .herd]

def hierarchyOp : Grammar Op :=
  seq (fun (((level, deps), ids), args) body => .hierarchy level deps ids args body)
    (((level.and bracketed).and (optional [] ((word .ids).before (parenthesized values)))).and
      (optional [] ((word .args).before bindings)))
    body

def finishOp : Grammar Op := (word .finish).meaning .finish

def op : Grammar Op :=
  choice constOp [
    allocOp,
    deallocOp,
    binaryOp .copy .copy,
    transformOp,
    binaryOp .muli .muli,
    binaryOp .addi .addi,
    applyOp,
    yieldOp,
    computeOp,
    transferOp,
    channelOp .put .put,
    channelOp .get .get,
    joinOp,
    loopOp,
    branchOp,
    hierarchyOp,
    finishOp]

/-! ## Statements, blocks, functions -/

/-- The names that the results of an operation get. -/
def results : Grammar (List Name) :=
  optional [] ((separated1 false (mark .comma) value).upTo (mark .equals))

def stmt : Grammar Stmt := spanned (fun (results, op) span => .mk results op span) (results.and op)

/-- What a block is. -/
def block : Grammar Block := spanned .mk (between .lbrace .rbrace (lines stmt))

def param : Grammar Param := seq .mk (value.upTo (mark .colon)) typeExpr

def func : Grammar Func :=
  spanned (fun ((name, params), body) span => ⟨name, params, body, span⟩)
    ((((word .func).before symbol).and
      (parenthesized (separated false (mark .comma) param))).and body)

def module : Grammar Module := spanned .mk (lines func)

end Form

/-! ## Reading modules -/

/-- A block that nests at most `depth` deep. -/
def block : (depth : Nat) → Reader Block
  | 0 => Reader.failure
  | depth + 1 => Form.block.reader (block depth)

/-- A block may nest as deep as there are tokens left. -/
def body : Reader Block := fun i => block (i.cursor.rest.length + 1) i

def wholeModule : Reader Module :=
  Reader.seq (fun m _ => m) (Form.module.reader body) Reader.endOfInput

/-- The module that the tokens of a source of `size` bytes spell. -/
def readModule (size : Nat) (tokens : List Lexeme) : Except Refusal Module :=
  match wholeModule (.ofTokens size tokens) with
  | (some m, _) => .ok m
  | (none, i) => .error (i.furthest.getD ⟨0, tokens.head?, []⟩)

/-! ## Parsing a text -/

/-- A lexical or syntax error. -/
structure ParseError where
  span : Span
  message : String
deriving DecidableEq, Repr

def Expected.text : Expected → String
  | terminal .int => "something else"
  | terminal (.keyword k) => s!"'{k.text}'"
  | terminal (.mark m) => s!"'{m.text}'"
  | terminal .value => "'<value>'"
  | terminal .symbol => "'<symbol>'"
  | terminal .ident => "'<ident>'"
  | terminal .newline => "'<newline>'"
  | endOfInput => "end of input"

/-- `a`, or `a, b, or c` -/
def enumeration : List String → String
  | [] => ""
  | [a] => a
  | [a, b] => s!"{a}, or {b}"
  | a :: rest => s!"{a}, {enumeration rest}"

namespace Refusal

def message (r : Refusal) : String :=
  let found := match r.found with
    | some x => s!"'{x.token.text}'"
    | none => "end of input"
  s!"found {found} expected {enumeration (r.expected.map Expected.text)}"

/-- Where the refusal is reported in a source of `size` bytes. -/
def span (r : Refusal) (size : Nat) : Span :=
  match r.found with
  | some x => x.span
  | none => ⟨size, size⟩

end Refusal

structure Parsed where
  /-- Absent when there is a syntax error. -/
  module? : Option Module
  errors : List ParseError

/-- Stray stretches of the text are reported and then left out; the syntax of what remains is
judged up to the first error. -/
def parse (source : String) : Parsed :=
  let size := source.utf8ByteSize
  let lexed := lex source
  let strays := lexed.strays.map fun s => ⟨s.span, s.message⟩
  match readModule size lexed.tokens with
  | .ok m => ⟨some m, strays⟩
  | .error r => ⟨none, strays ++ [⟨r.span size, r.message⟩]⟩

end AsyncOrder.Source
