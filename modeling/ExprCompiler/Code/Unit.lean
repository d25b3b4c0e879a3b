/-
Units of code: instructions with the table of their protected regions.
-/
import ExprCompiler.Code.Instr
import ExprCompiler.Native.Code

namespace ExprCompiler

/-- What a protected region does with an exception. -/
inductive HandlerKind
  /-- Goes on at the target with the exception on the stack, if it has the type. -/
  | catches (ty : Ty)
  /-- Runs the finally body at the target, then throws the exception again. -/
  | finally
deriving DecidableEq

/-- The listing form of a handler's kind. -/
def HandlerKind.describe : HandlerKind → String
  | .catches ty => "Catch(" ++ ty.text ++ ")"
  | .finally => "Finally"

/-- An entry of the table of protected regions. Of the entries that cover an instruction, the first
that accepts the exception is taken. -/
structure Handler where
  start : Nat
  stop : Nat
  kind : HandlerKind
  target : Nat
  /-- The depth of the stack where the region is entered. -/
  stackDepth : Nat
  /-- The number of finally bodies that are running where the region is entered. -/
  finallyDepth : Nat
deriving DecidableEq

namespace Handler

def Covers (e : Handler) (pc : Nat) : Prop :=
  e.start ≤ pc ∧ pc < e.stop

instance (e : Handler) (pc : Nat) : Decidable (e.Covers pc) :=
  inferInstanceAs (Decidable (_ ∧ _))

/-- The depth of the stack at the handler's first instruction. -/
def entryDepth (e : Handler) : Nat :=
  match e.kind with
  | .catches _ => e.stackDepth + 1
  | .finally => e.stackDepth

end Handler

structure CodeUnit where
  name : String
  /-- The types of the formal parameters, without the closure. -/
  params : List Ty
  ret : Ty
  /-- The layout of the closure that the unit runs with. -/
  layout : Option Layout
  locals : Array Ty
  instrs : Array Instr
  handlers : List Handler
  maxStack : Nat
  native : Option NativeCode

namespace CodeUnit

def arity (u : CodeUnit) : Nat :=
  u.params.length

/-- A number at least four characters wide. -/
def lineNumber (n : Nat) : String :=
  let s := toString n
  "".pushn ' ' (4 - s.length) ++ s

/-- The listing of a unit, one instruction and one protected region a line. -/
def listing (h : Heap) (u : CodeUnit) : String :=
  let head := u.name ++ s!" ({u.params.length} params, {u.locals.size} locals)\n"
  let lines := u.instrs.toList.zipIdx.map fun (i, pc) =>
    "  " ++ lineNumber pc ++ ": " ++ i.text h ++ "\n"
  let regions := u.handlers.map fun e =>
    s!"  .try {e.start}..{e.stop} " ++ e.kind.describe ++ s!" -> {e.target}\n"
  "unit " ++ head ++ String.join lines ++ String.join regions

end CodeUnit

end ExprCompiler
