/-
What code generation knows about the unit around a node, and access to the unit's variables and
closure items.
-/
import ExprCompiler.Capture
import ExprCompiler.Code.Builder
import ExprCompiler.Decline

namespace ExprCompiler

/-- Whether the enclosing expression uses a node's value. -/
inductive Usage
  | value | discard
deriving DecidableEq, Repr, Inhabited

/-- A value is never wanted of a void node. -/
def Usage.unlessVoid (usage : Usage) (ty : Ty) : Usage :=
  if ty.isVoid then .discard else usage

/-- What is known about the unit around the node. -/
structure EmitContext where
  operators : Overloads
  params : List Param
  capture : Capture
  /-- The layout of the unit's closure, if it has captures. -/
  layout : Option Layout
  /-- The variables of blocks and catch clauses with their locals, innermost scope first. -/
  scopes : List (List (Param × Nat)) := []
  /-- The locals that hold the exceptions of the enclosing catch bodies, innermost first. -/
  catchLocals : List Nat := []

abbrev EmitM := ReaderT EmitContext (StateT Builder (Except Refusal))

namespace EmitM

variable {α : Type}

def decline (u : Unsupported) : EmitM α :=
  throw (.declined (.unsupported u))

def check : Except Defect α → EmitM α
  | .ok a => return a
  | .error d => throw (.defect d)

/-- Changes the code. -/
def build (f : Builder → Except Defect Builder) : EmitM Unit := fun _ b =>
  match f b with
  | .ok b => .ok ((), b)
  | .error d => .error (.defect d)

def emit (i : Instr) : EmitM Unit :=
  build fun b => b.emit i

def branch (kind : BranchKind) (label : Nat) : EmitM Unit :=
  build fun b => b.branch kind label

def mark (label : Nat) : EmitM Unit :=
  build fun b => b.mark label

def newLabel : EmitM Nat :=
  modifyGet Builder.newLabel

def newLocal (ty : Ty) : EmitM Nat :=
  modifyGet fun b => b.newLocal ty

/-! ## Variables and closure items -/

/-- The unit's layout; only units with captures have one. -/
def layout : EmitM Layout := do
  match (← read).layout with
  | some l => return l
  | none => throw (.defect .unitWithoutClosure)

/-- The local variable of the innermost scope that declares a token. -/
def localOf? (scopes : List (List (Param × Nat))) (p : Param) : Option Nat :=
  scopes.findSome? fun scope => (scope.reverse.find? fun v => v.1 == p).map Prod.snd

/-- Where a token's variable is kept. -/
def resolve (p : Param) : EmitM FrameVar := do
  let ctx ← read
  match localOf? ctx.scopes p with
  | some i => return .localVar i
  | none =>
    match ctx.params.findIdx? (· == p) with
    | some i => return .arg ((if ctx.layout.isSome then i + 1 else i) % Nat.pow 2 16)
    | none =>
      match ctx.capture.paramIndex? p, ctx.layout with
      | some i, some l => return .closure (← check (l.slot .param i))
      | _, _ => throw (.declined (.invalidCapture p.name))

/-- Loads a closure item of a given type. Items of a sequence are checked. -/
def loadItem (slot : Nat) (ty : Ty) : EmitM Unit := do
  match (← layout).strategy with
  | .fixed => emit (.loadItem .fixed slot)
  | .indexed =>
    emit (.loadItem .indexed slot)
    if ty.isValueType then emit (.unbox ty)
    else if ty ≠ .object then emit (.castClass ty)

def loadVar (var : FrameVar) (ty : Ty) : EmitM Unit :=
  match var with
  | .arg i => emit (.loadArg i)
  | .localVar i => emit (.loadLocal i)
  | .closure slot => loadItem slot ty

def storeVar (var : FrameVar) : EmitM Unit := do
  match var with
  | .arg i => emit (.storeArg i)
  | .localVar i => emit (.storeLocal i)
  | .closure slot => emit (.storeItem (← layout).strategy slot)

def loadVarAddr (var : FrameVar) : EmitM Unit :=
  match var with
  | .arg i => emit (.loadArgAddr i)
  | .localVar i => emit (.loadLocalAddr i)
  | .closure slot => emit (.loadItemAddr slot)

/-- The index of an item that the analysis must have found. -/
def found : Option Nat → EmitM Nat
  | some i => return i
  | none => throw (.defect .notAnalysed)

/-- Loads a captured constant. -/
def loadConstant (node : NodeId) (ty : Ty) : EmitM Unit := do
  let i ← found ((← read).capture.constantIndex? node)
  loadItem (← check ((← layout).slot .constant i)) ty

/-- Loads the item of a nested lambda. -/
def loadNested (node : NodeId) (ty : Ty) : EmitM Unit := do
  let i ← found ((← read).capture.nestedIndex? node)
  loadItem (← check ((← layout).slot .nested i)) ty

/-- Drops a value that is not wanted. -/
def settle (usage : Usage) (ty : Ty) : EmitM Unit := do
  if usage = .discard ∧ ¬ ty.isVoid then emit .pop

/-- Copies the top value into a new local if the value is wanted. -/
def keep (usage : Usage) (ty : Ty) : EmitM (Option Nat) := do
  if usage = .value then
    let temp ← newLocal ty
    emit .dup
    emit (.storeLocal temp)
    return some temp
  else return none

def restore (temp : Option Nat) : EmitM Unit :=
  temp.forM fun i => emit (.loadLocal i)

end EmitM

end ExprCompiler
