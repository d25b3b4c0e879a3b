/-
What a unit needs from its closure: constants that do not fit into an instruction, parameters that
nothing in the unit declares, and nested lambdas. Each group keeps the order in which its items
were first met, and holds each item once.
-/
import ExprCompiler.World

namespace ExprCompiler

/-- A linked unit and how it gets its closure. -/
inductive Artifact
  /-- Without captures. -/
  | bare (unit : UnitRef)
  /-- A root unit with its closure. -/
  | bound (unit : UnitRef) (closure : ClosureRef)
  /-- A nested unit; the enclosing unit builds its closure. -/
  | curryable (unit : UnitRef) (layout : Layout)
deriving DecidableEq

namespace Artifact

def unit : Artifact → UnitRef
  | .bare u | .bound u _ | .curryable u _ => u

/-- The artifact as a function, unless it still needs a closure. -/
def callable? : Artifact → Option Callable
  | .bare u => some (.code u none)
  | .bound u c => some (.code u (some c))
  | .curryable _ _ => none

/-- The value that stands for the artifact in an enclosing closure. -/
def itemValue : Artifact → Value
  | .bare u => .func (.code u none)
  | .bound u c => .func (.code u (some c))
  | .curryable u _ => .code u

/-- The function that runs a curryable artifact with a closure of the size of its layout. -/
def bind? (a : Artifact) (w : World) (closure : ClosureRef) : Except Defect (Option Callable) :=
  match a with
  | .curryable u layout =>
    let size := (w.closure closure).items.size
    if size = layout.size then .ok (some (.code u (some closure)))
    else .error (.bindCount size layout.size)
  | _ => .ok none

end Artifact

/-- A constant that does not fit into an instruction. -/
structure CapturedConstant where
  node : NodeId
  value : Value
  ty : Ty

/-- A nested lambda; `C` is what its own unit captures. -/
structure NestedOf (C : Type) where
  node : NodeId
  artifact : Artifact
  /-- The captures of the nested unit; none if it has no closure. -/
  capture : Option C
  sig : Signature

structure Capture where
  constants : List CapturedConstant := []
  params : List Param := []
  nested : List (NestedOf Capture) := []

abbrev Nested := NestedOf Capture

namespace NestedOf

variable {C : Type}

/-- The static type of the lambda's closure item. -/
def itemType (n : NestedOf C) : Ty :=
  if n.capture.isSome then .object else n.sig.toTy

end NestedOf

namespace Capture

def constantIndex? (c : Capture) (node : NodeId) : Option Nat :=
  c.constants.findIdx? fun r => r.node == node

def paramIndex? (c : Capture) (p : Param) : Option Nat :=
  c.params.findIdx? fun q => q == p

def nestedIndex? (c : Capture) (node : NodeId) : Option Nat :=
  c.nested.findIdx? fun n => n.node == node

/-- Adds a constant unless its node is there already, and says whether it was added. -/
def addConstant (c : Capture) (r : CapturedConstant) : Bool × Capture :=
  if (c.constantIndex? r.node).isSome then (false, c)
  else (true, { c with constants := c.constants ++ [r] })

/-- Adds a parameter unless it is there already, and says whether it was added. -/
def addParam (c : Capture) (p : Param) : Bool × Capture :=
  if (c.paramIndex? p).isSome then (false, c) else (true, { c with params := c.params ++ [p] })

/-- Adds a lambda unless its node is there already, and says whether it was added. -/
def addNested (c : Capture) (n : Nested) : Bool × Capture :=
  if (c.nestedIndex? n.node).isSome then (false, c)
  else (true, { c with nested := c.nested ++ [n] })

/-- The number of closure items. -/
def size (c : Capture) : Nat :=
  c.constants.length + c.params.length + c.nested.length

def isEmpty (c : Capture) : Bool :=
  c.size == 0

/-- The layout of a closure for the captured items. -/
def layout (c : Capture) (limit : Nat) : Layout :=
  .ofTypes (c.constants.map CapturedConstant.ty) (c.params.map Param.ty)
    (c.nested.map NestedOf.itemType) limit

/-- The closure of a root unit, which holds no parameters. -/
def materialize (c : Capture) (layout : Layout) : Except Defect Closure :=
  if c.params.isEmpty then
    layout.instantiate
      (c.constants.map CapturedConstant.value ++ c.nested.map fun n => n.artifact.itemValue)
  else .error .capturedAtRoot

/-- The listing form of captures. -/
def describe (c : Capture) : String :=
  Text.record "ClosureInfo"
    [("constants", toString c.constants.length),
      ("params", Text.bracketed (c.params.map Param.describe)),
      ("nested", toString c.nested.length)]

end Capture

end ExprCompiler
