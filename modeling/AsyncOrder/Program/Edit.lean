import AsyncOrder.Program.Query
import AsyncOrder.Search

/-!
# Changing a program

Dependency lists, uses, hierarchy parameters, and taking operations out.  No change touches the
tables of ids: what is taken out of its block stays in the arena, marked `erased`.
-/

namespace AsyncOrder.Program

variable (p : Program)

/-! ## Dependency lists -/

def setDeps (op : OpId) (deps : List ValueId) : Program :=
  p.modifyOp op fun o => { o with deps }

def clearDeps (op : OpId) : Program := p.setDeps op []

/-- Makes `op` wait on `token` as well, unless it does. -/
def addDep (op : OpId) (token : ValueId) : Program :=
  if token ∈ p.deps op then p else p.setDeps op (p.deps op ++ [token])

/-- Does `addDep` change the list? -/
def lacksDep (op : OpId) (token : ValueId) : Bool := token ∉ p.deps op

def removeDepAt (op : OpId) (i : Nat) : Program := p.setDeps op ((p.deps op).eraseIdx i)

/-! ## Uses -/

/-- Every live operation, changed by `f`. -/
def mapLive (f : Operation → Operation) : Program :=
  { p with ops := p.ops.map fun o => if o.erased then o else f o }

/-- Live operations use `new` where they used `old`. -/
def replaceUses (old new : ValueId) : Program :=
  let swap := fun v => if v = old then new else v
  p.mapLive fun o => { o with operands := o.operands.map swap, deps := o.deps.map swap }

/-- No live operation waits on `token` any more. -/
def eraseTokenUses (token : ValueId) : Program :=
  p.mapLive fun o => { o with deps := o.deps.filter (· ≠ token) }

/-! ## Structure -/

/-- `op` and everything nested in it, erased or not, each once. -/
def subtree (op : OpId) : List OpId := visit p.nested p.ops.size [op] .empty

/-- Takes `op` out of its block. -/
def unlink (op : OpId) : Program :=
  p.modifyBlock (p.op op).parent fun b => { b with ops := b.ops.filter (· ≠ op) }

/-- Takes `op` out of its block and erases it with all that is nested in it. -/
def eraseOp (op : OpId) : Program :=
  let unlinked := p.unlink op
  (unlinked.subtree op).foldl (fun p o => p.modifyOp o fun o => { o with erased := true }) unlinked

/-- The arguments of `block` are told their places anew. -/
def renumberArgs (block : BlockId) : Program :=
  (p.block block).args.zipIdx.foldl
    (fun p (v, i) => p.modifyValue v fun value => { value with origin := .arg block i }) p

/-- Removes kernel operand `i` of a hierarchy call and the parameter that receives it. -/
def removeParam (op : OpId) (i : Nat) : Program :=
  match p.kind op, p.body? op with
  | .hierarchy _ ids, some body =>
    let p := p.modifyOp op fun o => { o with operands := o.operands.eraseIdx i }
    let p := p.modifyBlock body fun b => { b with args := b.args.eraseIdx (ids + i) }
    p.renumberArgs body
  | _, _ => p

end AsyncOrder.Program
