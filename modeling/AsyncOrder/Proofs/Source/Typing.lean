import AsyncOrder.Lowering.Basic
import Mathlib.Data.List.Forall2

/-!
# Typed modules

The rules for modules, told of the text alone: what names mean where they stand, which types
operations ask for and give, and how bodies end.

    Γ.Has n t                              where Γ holds, `n` means a value of type `t`
    OpTyped carry Γ op ts                  `op` has results of types `ts`
    BlockTyped carry region scope Γ stmts ys
                                           `stmts` may go on in a block of which `scope` tells what
                                           is defined so far, and yield `ys` in the end

What loops may yield is left open: `carry ts ys` says that a loop carrying values of types `ts` may
yield values of types `ys`.
-/

namespace AsyncOrder.Source

open Lowering (Demand Region)

/-! ## Names -/

/-- What a block has defined so far, latest first. -/
structure Scope where
  names : List (String × ValueType)
  /-- The block is the body of a hierarchy call. -/
  isolated : Bool

namespace Scope

def define (scope : Scope) (names : List Name) (types : List ValueType) : Scope :=
  { scope with names := ((names.zip types).map fun e => (e.1.text, e.2)).reverse ++ scope.names }

/-- What a block begins with. -/
def ofArgs (isolated : Bool) (names : List Name) (types : List ValueType) : Scope :=
  define ⟨[], isolated⟩ names types

/-- No name is defined twice. -/
def Distinct (scope : Scope) : Prop := (scope.names.map (·.1)).Nodup

theorem keys_define {α : Type} (scope : Scope) (names : List Name) (type : α → ValueType)
    (values : List α) : (scope.define names (values.map type)).names.map (·.1) =
      ((names.zip values).map fun e => e.1.text).reverse ++ scope.names.map (·.1) := by
  rw [define, List.map_append, List.map_reverse, List.map_map, List.zip_map_right, List.map_map]
  rfl

theorem distinct_ofArgs_nil (isolated : Bool) : (ofArgs isolated [] []).Distinct := List.nodup_nil

end Scope

/-- The blocks around a place, innermost first. -/
abbrev Context := List Scope

namespace Context

/-- The innermost definition of `n` gives it type `t`, and no hierarchy call lies in between. -/
inductive Has : Context → String → ValueType → Prop where
  | here {scope : Scope} {outer : Context} {n : String} {t : ValueType}
      (h : scope.names.lookup n = some t) : Has (scope :: outer) n t
  | outer {scope : Scope} {outer : Context} {n : String} {t : ValueType}
      (hnot : scope.names.lookup n = none) (hopen : scope.isolated = false) (h : Has outer n t) :
      Has (scope :: outer) n t

/-- The name may stand where `demand` is made, and means a value of type `t`. -/
def Gives (Γ : Context) (demand : Demand) (name : Name) (t : ValueType) : Prop :=
  Γ.Has name.text t ∧ demand.accepts t = true

/-- A buffer with no offsets, or with one for each of its dimensions. -/
def Reaches (Γ : Context) (a : Access) : Prop :=
  ∃ t, Γ.Gives .memref a.base t ∧ (∀ o ∈ a.offsets, Γ.Gives .index o .index) ∧
    (a.offsets = [] ∨ t.rank? = some a.offsets.length)

end Context

/-- Ranks have 32 bits, and spaces are known. -/
inductive TypeExpr.Denotes : TypeExpr → ValueType → Prop where
  | token (span : Span) : Denotes (.token span) .token
  | index (span : Span) : Denotes (.index span) .index
  | memref {rank : Nat} {space : Name} {s : MemorySpace} (span : Span)
      (hrank : rank < UInt32.size) (hspace : space.text = s.text) : Denotes (.memref rank space span) (.memref rank s)

/-! ## Operations -/

/-- What a loop that carries values of some types may yield. -/
abbrev Carry := List ValueType → List ValueType → Prop

mutual

inductive OpTyped (carry : Carry) : Context → Op → List ValueType → Prop where
  | const {Γ : Context} (n : Int) : OpTyped carry Γ (.const n) [.index]
  | alloc {Γ : Context} {type : TypeExpr} {t : ValueType} (htype : type.Denotes t)
      (hmemref : t.isMemref = true) : OpTyped carry Γ (.alloc type) [t]
  | dealloc {Γ : Context} {a : Name} {t : ValueType} (ha : Γ.Gives .memref a t) :
      OpTyped carry Γ (.dealloc a) []
  | copy {Γ : Context} {a b : Name} {s t : ValueType} (ha : Γ.Gives .memref a s)
      (hb : Γ.Gives .memref b t) : OpTyped carry Γ (.copy a b) []
  | transform {Γ : Context} {ins outs : List Name}
      (h : ∀ a ∈ ins ++ outs, ∃ t, Γ.Gives .any a t) : OpTyped carry Γ (.transform ins outs) []
  | muli {Γ : Context} {a b : Name} (ha : Γ.Gives .index a .index)
      (hb : Γ.Gives .index b .index) : OpTyped carry Γ (.muli a b) [.index]
  | addi {Γ : Context} {a b : Name} (ha : Γ.Gives .index a .index)
      (hb : Γ.Gives .index b .index) : OpTyped carry Γ (.addi a b) [.index]
  | apply {Γ : Context} {args : List Name} (h : ∀ a ∈ args, Γ.Gives .index a .index) :
      OpTyped carry Γ (.apply args) [.index]
  | join {Γ : Context} {deps : List Name} (hdeps : ∀ d ∈ deps, Γ.Gives .token d .token) :
      OpTyped carry Γ (.join deps) [.token]
  | transfer {Γ : Context} {deps : List Name} {dst src : Access}
      (hdeps : ∀ d ∈ deps, Γ.Gives .token d .token) (hdst : Γ.Reaches dst) (hsrc : Γ.Reaches src) :
      OpTyped carry Γ (.transfer deps dst src) [.token]
  | put {Γ : Context} {channel : Name} {deps : List Name} {src : Access}
      (hdeps : ∀ d ∈ deps, Γ.Gives .token d .token) (hsrc : Γ.Reaches src) :
      OpTyped carry Γ (.put channel deps src) [.token]
  | get {Γ : Context} {channel : Name} {deps : List Name} {dst : Access}
      (hdeps : ∀ d ∈ deps, Γ.Gives .token d .token) (hdst : Γ.Reaches dst) :
      OpTyped carry Γ (.get channel deps dst) [.token]
  | compute {Γ : Context} {deps : List Name} {stmts : List Stmt} {span : Span}
      {ys : Option (List ValueType)} (hdeps : ∀ d ∈ deps, Γ.Gives .token d .token)
      (hbody : BlockTyped carry .compute (.ofArgs false [] []) Γ stmts ys) :
      OpTyped carry Γ (.compute deps (.mk stmts span)) (.token :: ys.getD [])
  | loop {Γ : Context} {kind : LoopKind} {var lower upper step : Name} {carried : List Binding}
      {stmts : List Stmt} {span : Span} {ts ys : List ValueType}
      (hbounds : ∀ a ∈ [lower, upper, step], Γ.Gives .index a .index)
      (hinits : List.Forall₂ (Γ.Gives .any) (carried.map (·.outer)) ts)
      (hargs : (Scope.ofArgs false (var :: carried.map (·.inner)) (.index :: ts)).Distinct)
      (hbody : BlockTyped carry .loop
        (.ofArgs false (var :: carried.map (·.inner)) (.index :: ts)) Γ stmts (some ys))
      (hcarry : carry ts ys) :
      OpTyped carry Γ (.loop kind var lower upper step carried (.mk stmts span)) ts
  | branch {Γ : Context} {cond : Name} {thenStmts elseStmts : List Stmt}
      {thenSpan elseSpan : Span} {ts : List ValueType} (hcond : Γ.Gives .index cond .index)
      (hthen : BlockTyped carry .branch (.ofArgs false [] []) Γ thenStmts (some ts))
      (helse : BlockTyped carry .branch (.ofArgs false [] []) Γ elseStmts (some ts)) :
      OpTyped carry Γ (.branch cond (.mk thenStmts thenSpan) (.mk elseStmts elseSpan)) ts
  | hierarchy {Γ : Context} {level : Level} {deps ids : List Name} {args : List Binding}
      {stmts : List Stmt} {span : Span} {ts : List ValueType} {ys : Option (List ValueType)}
      (hdeps : ∀ d ∈ deps, Γ.Gives .token d .token)
      (hoperands : List.Forall₂ (Γ.Gives .any) (args.map (·.outer)) ts) (htoken : .token ∉ ts)
      (hargs : (Scope.ofArgs true (ids ++ args.map (·.inner))
        (List.replicate ids.length .index ++ ts)).Distinct)
      (hbody : BlockTyped carry .hierarchy (.ofArgs true (ids ++ args.map (·.inner))
        (List.replicate ids.length .index ++ ts)) Γ stmts ys) :
      OpTyped carry Γ (.hierarchy level deps ids args (.mk stmts span)) [.token]

/-- Terminators stand last, where they may, and have no results.  Any other operation comes with
a name for each of its results or with none, and its results are defined behind it. -/
inductive BlockTyped (carry : Carry) :
    Region → Scope → Context → List Stmt → Option (List ValueType) → Prop where
  | nil (region : Region) (scope : Scope) (Γ : Context) : BlockTyped carry region scope Γ [] none
  | yield {region : Region} {scope : Scope} {Γ : Context} {values : List Name} {span : Span}
      {ts : List ValueType} (hregion : region = .compute ∨ region = .loop ∨ region = .branch)
      (hvalues : List.Forall₂ (Context.Gives (scope :: Γ) .any) values ts) :
      BlockTyped carry region scope Γ [.mk [] (.yield values) span] (some ts)
  | finish {scope : Scope} {Γ : Context} {span : Span} :
      BlockTyped carry .hierarchy scope Γ [.mk [] .finish span] none
  | cons {region : Region} {scope : Scope} {Γ : Context} {results : List Name} {op : Op}
      {span : Span} {rest : List Stmt} {ts : List ValueType} {ys : Option (List ValueType)}
      (hop : OpTyped carry (scope :: Γ) op ts)
      (hresults : results = [] ∨ results.length = ts.length)
      (hnames : (scope.define results ts).Distinct)
      (hrest : BlockTyped carry region (scope.define results ts) Γ rest ys) :
      BlockTyped carry region scope Γ (.mk results op span :: rest) ys

end

/-! ## Modules -/

/-- Parameters are defined when the body is entered, and the body ends without terminator. -/
def Func.Typed (carry : Carry) (f : Func) : Prop :=
  ∃ ts, List.Forall₂ (fun (param : Param) t => param.type.Denotes t) f.params ts ∧
    (Scope.ofArgs false (f.params.map (·.name)) ts).Distinct ∧
      BlockTyped carry .func (.ofArgs false (f.params.map (·.name)) ts) [] f.body.stmts none

def Module.Typed (carry : Carry) (m : Module) : Prop := ∀ f ∈ m.funcs, f.Typed carry

/-- Loops may yield anything. -/
def Carry.any : Carry := fun _ _ => True

/-- Loops yield what they carry. -/
def Carry.same : Carry := fun ts ys => ys = ts

end AsyncOrder.Source
