import AsyncOrder.Source.Parser

/-!
# The tokens of source trees

Each tree is spelled by one row of tokens, in which lists that may be left out are left out when
they are empty, and each statement and each function ends with one newline.  Positions are not
spelled; `plain` forgets them.
-/

namespace AsyncOrder

def LoopKind.keyword : LoopKind → Keyword
  | sequential => .loop
  | parallel => .parallel

def Level.keyword : Level → Keyword
  | launch => .launch
  | segment => .segment
  | herd => .herd

namespace Source

variable {α : Type}

/-! ## Tokens -/

/-- The items with commas between them. -/
def commas (item : α → List Token) : List α → List Token
  | [] => []
  | a :: as => item a ++ as.flatMap fun b => .mark .comma :: item b

def Name.tokens (n : Name) : List Token := [.value n.text]

def TypeExpr.tokens : TypeExpr → List Token
  | token _ => [.keyword .token]
  | index _ => [.keyword .index]
  | memref rank space _ => [.keyword .memref, .mark .less, .int rank, .mark .comma,
      .ident space.text, .mark .greater]

def Param.tokens (p : Param) : List Token := .value p.name.text :: .mark .colon :: p.type.tokens

def Binding.tokens (b : Binding) : List Token :=
  [.value b.inner.text, .mark .equals, .value b.outer.text]

def parens (ts : List Token) : List Token := .mark .lparen :: (ts ++ [.mark .rparen])

/-- `[names]`, and nothing when there are none. -/
def brackets : List Name → List Token
  | [] => []
  | n :: ns => .mark .lbracket :: (commas Name.tokens (n :: ns) ++ [.mark .rbracket])

/-- The items in parentheses behind a keyword, and nothing when there are none. -/
def clause (k : Keyword) (item : α → List Token) : List α → List Token
  | [] => []
  | a :: as => .keyword k :: parens (commas item (a :: as))

def Access.tokens (a : Access) : List Token := .value a.base.text :: brackets a.offsets

/-- `names =`, and nothing when there are none. -/
def resultTokens : List Name → List Token
  | [] => []
  | n :: ns => commas Name.tokens (n :: ns) ++ [.mark .equals]

mutual

def Op.tokens : Op → List Token
  | .const n => [.keyword .const, .int n]
  | .alloc type => .keyword .alloc :: .mark .colon :: type.tokens
  | .dealloc a => [.keyword .dealloc, .value a.text]
  | .copy a b => [.keyword .copy, .value a.text, .mark .comma, .value b.text]
  | .transform ins outs => .keyword .transform :: .keyword .ins ::
      (parens (commas Name.tokens ins) ++ .keyword .outs :: parens (commas Name.tokens outs))
  | .muli a b => [.keyword .muli, .value a.text, .mark .comma, .value b.text]
  | .addi a b => [.keyword .addi, .value a.text, .mark .comma, .value b.text]
  | .apply args => .keyword .apply :: parens (commas Name.tokens args)
  | .yield values => .keyword .yield :: commas Name.tokens values
  | .compute deps body => .keyword .compute :: (brackets deps ++ body.tokens)
  | .transfer deps dst src =>
      .keyword .transfer :: (brackets deps ++ (dst.tokens ++ .mark .arrow :: src.tokens))
  | .put channel deps src =>
      .keyword .put :: .symbol channel.text :: (brackets deps ++ src.tokens)
  | .get channel deps dst =>
      .keyword .get :: .symbol channel.text :: (brackets deps ++ dst.tokens)
  | .join deps => .keyword .join :: brackets deps
  | .loop kind var lower upper step carried body => .keyword kind.keyword :: .value var.text ::
      .mark .equals :: .value lower.text :: .keyword .upTo :: .value upper.text ::
      .keyword .step :: .value step.text :: (clause .iter Binding.tokens carried ++ body.tokens)
  | .branch cond thenBody elseBody => .keyword .branch :: .value cond.text ::
      (thenBody.tokens ++ .keyword .otherwise :: elseBody.tokens)
  | .hierarchy level deps ids args body => .keyword level.keyword ::
      (brackets deps ++ (clause .ids Name.tokens ids ++
        (clause .args Binding.tokens args ++ body.tokens)))
  | .finish => [.keyword .finish]

def Stmt.tokens : Stmt → List Token
  | .mk results op _ => resultTokens results ++ op.tokens

def Block.tokens : Block → List Token
  | .mk stmts _ => .mark .lbrace :: .newline :: (stmtTokens stmts ++ [.mark .rbrace])

/-- Each statement on a line of its own. -/
def stmtTokens : List Stmt → List Token
  | [] => []
  | stmt :: rest => stmt.tokens ++ .newline :: stmtTokens rest

end

def Func.tokens (f : Func) : List Token :=
  .keyword .func :: .symbol f.name.text :: (parens (commas Param.tokens f.params) ++ f.body.tokens)

def Module.tokens (m : Module) : List Token := m.funcs.flatMap fun f => f.tokens ++ [.newline]

/-! ## Positions -/

/-- A span that says nothing. -/
def nowhere : Span := ⟨0, 0⟩

def Name.plain (n : Name) : Name := ⟨n.text, nowhere⟩

def TypeExpr.plain : TypeExpr → TypeExpr
  | token _ => token nowhere
  | index _ => index nowhere
  | memref rank space _ => memref rank space.plain nowhere

def Param.plain (p : Param) : Param := ⟨p.name.plain, p.type.plain⟩

def Access.plain (a : Access) : Access := ⟨a.base.plain, a.offsets.map Name.plain⟩

def Binding.plain (b : Binding) : Binding := ⟨b.inner.plain, b.outer.plain⟩

mutual

def Op.plain : Op → Op
  | .const n => .const n
  | .alloc type => .alloc type.plain
  | .dealloc a => .dealloc a.plain
  | .copy a b => .copy a.plain b.plain
  | .transform ins outs => .transform (ins.map Name.plain) (outs.map Name.plain)
  | .muli a b => .muli a.plain b.plain
  | .addi a b => .addi a.plain b.plain
  | .apply args => .apply (args.map Name.plain)
  | .yield values => .yield (values.map Name.plain)
  | .compute deps body => .compute (deps.map Name.plain) body.plain
  | .transfer deps dst src => .transfer (deps.map Name.plain) dst.plain src.plain
  | .put channel deps src => .put channel.plain (deps.map Name.plain) src.plain
  | .get channel deps dst => .get channel.plain (deps.map Name.plain) dst.plain
  | .join deps => .join (deps.map Name.plain)
  | .loop kind var lower upper step carried body => .loop kind var.plain lower.plain upper.plain
      step.plain (carried.map Binding.plain) body.plain
  | .branch cond thenBody elseBody => .branch cond.plain thenBody.plain elseBody.plain
  | .hierarchy level deps ids args body => .hierarchy level (deps.map Name.plain)
      (ids.map Name.plain) (args.map Binding.plain) body.plain
  | .finish => .finish

def Stmt.plain : Stmt → Stmt
  | .mk results op _ => .mk (results.map Name.plain) op.plain nowhere

def Block.plain : Block → Block
  | .mk stmts _ => .mk (plainStmts stmts) nowhere

def plainStmts : List Stmt → List Stmt
  | [] => []
  | stmt :: rest => stmt.plain :: plainStmts rest

end

theorem plainStmts_eq_map (stmts : List Stmt) : plainStmts stmts = stmts.map Stmt.plain := by
  induction stmts with
  | nil => rfl
  | cons stmt rest ih => rw [plainStmts, ih, List.map_cons]

theorem stmtTokens_eq_flatMap (stmts : List Stmt) :
    stmtTokens stmts = stmts.flatMap fun s => s.tokens ++ [.newline] := by
  induction stmts with
  | nil => rfl
  | cons stmt rest ih => rw [stmtTokens, ih, List.flatMap_cons, List.append_assoc]; rfl

def Func.plain (f : Func) : Func := ⟨f.name.plain, f.params.map Param.plain, f.body.plain, nowhere⟩

def Module.plain (m : Module) : Module := ⟨m.funcs.map Func.plain, nowhere⟩

end Source

end AsyncOrder
