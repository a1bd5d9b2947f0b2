import AsyncOrder.Text.Span
import AsyncOrder.Program.Kind

/-!
# Source modules

The tree of a program text: functions, blocks, statements.  Names are kept as written, without
their sigil and unresolved; every name and construct knows where it stands.
-/

namespace AsyncOrder.Source

structure Name where
  text : String
  span : Span
deriving DecidableEq, Repr

/-- `token`, `index` or `memref<RANK, SPACE>`, any integer and any word at this point. -/
inductive TypeExpr where
  | token (span : Span)
  | index (span : Span)
  | memref (rank : Int) (space : Name) (span : Span)
deriving DecidableEq, Repr

def TypeExpr.span : TypeExpr → Span
  | token span | index span | memref _ _ span => span

structure Param where
  name : Name
  type : TypeExpr
deriving DecidableEq, Repr

/-- A buffer, with one offset per dimension or, for the whole of it, none. -/
structure Access where
  base : Name
  offsets : List Name
deriving DecidableEq, Repr

/-- `%inner = %outer` -/
structure Binding where
  inner : Name
  outer : Name
deriving DecidableEq, Repr

mutual

inductive Block where
  | mk (stmts : List Stmt) (span : Span)

/-- `results = op`, or a bare `op`. -/
inductive Stmt where
  | mk (results : List Name) (op : Op) (span : Span)

inductive Op where
  | const (value : Int)
  | alloc (type : TypeExpr)
  | dealloc (buffer : Name)
  | copy (src dst : Name)
  | transform (ins outs : List Name)
  | muli (a b : Name)
  | addi (a b : Name)
  | apply (args : List Name)
  | yield (values : List Name)
  | compute (deps : List Name) (body : Block)
  | transfer (deps : List Name) (dst src : Access)
  | put (channel : Name) (deps : List Name) (src : Access)
  | get (channel : Name) (deps : List Name) (dst : Access)
  | join (deps : List Name)
  | loop (kind : LoopKind) (var lower upper step : Name) (carried : List Binding)
      (body : Block)
  | branch (cond : Name) (thenBody elseBody : Block)
  | hierarchy (level : Level) (deps ids : List Name) (args : List Binding) (body : Block)
  | finish

end

def Block.stmts : Block → List Stmt
  | mk stmts _ => stmts

def Block.span : Block → Span
  | mk _ span => span

namespace Stmt

def results : Stmt → List Name
  | mk results _ _ => results

def op : Stmt → Op
  | mk _ op _ => op

def span : Stmt → Span
  | mk _ _ span => span

end Stmt

/-- The word the operation is written with. -/
def Op.mnemonic : Op → String
  | const _ => "const"
  | alloc _ => "alloc"
  | dealloc _ => "dealloc"
  | copy .. => "copy"
  | transform .. => "transform"
  | muli .. => "muli"
  | addi .. => "addi"
  | apply _ => "apply"
  | yield _ => "yield"
  | compute .. => "compute"
  | transfer .. => "transfer"
  | put .. => "put"
  | get .. => "get"
  | join _ => "join"
  | loop kind .. => kind.text
  | branch .. => "if"
  | hierarchy level .. => level.text
  | finish => "end"

structure Func where
  name : Name
  params : List Param
  body : Block
  span : Span

structure Module where
  funcs : List Func
  span : Span

end AsyncOrder.Source
