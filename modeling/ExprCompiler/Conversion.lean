/-
Built-in conversions between static types: a plan is a list of steps, fixed by the two types, that
is applied to a value at run time. Boxing and wrapping into a nullable take no step.
-/
import ExprCompiler.Operation

namespace ExprCompiler

/-- One step of a conversion. -/
inductive ConvStep
  | numeric (target : Ty) (mode : Overflow)
  /-- From a nullable to its value; throws on null. -/
  | unwrap
  | unbox (ty : Ty)
  | cast (ty : Ty)
deriving DecidableEq

namespace ConvStep

/-- The listing form of a step. -/
def describe : ConvStep → String
  | .numeric ty mode => Text.record "Numeric" [("to", ty.text), ("overflow", mode.name)]
  | .unwrap => "Unwrap"
  | .unbox ty => "Unbox(" ++ ty.text ++ ")"
  | .cast ty => "Cast(" ++ ty.text ++ ")"

def apply (v : Value) : ConvStep → Except Cause Value
  | .numeric ty mode => v.convert ty mode
  | .unwrap => v.unwrap
  | .unbox ty => v.unbox ty
  | .cast ty => v.castClass ty

end ConvStep

/-- Conversion between types that are both primitive under their nullables. -/
def numericPlan? (source target : Ty) (checked : Bool) : Option (List ConvStep) :=
  let (src, dst) := (source.nonNullable, target.nonNullable)
  if src.isNumeric && dst.isNumeric then
    let step := ConvStep.numeric dst (Overflow.select checked src)
    some (if source.isNullable && !target.isNullable then [.unwrap, step] else [step])
  else none

/-- Conversion between a reference type and another type. -/
def referencePlan? (source target : Ty) : Option (List ConvStep) :=
  match source.isReference, target.isReference with
  | false, true => if target = .object then some [] else none
  | true, false => if source = .object then some [.unbox target] else none
  | true, true =>
    if target.accepts source then some []
    else if source.accepts target then some [.cast target]
    else none
  | false, false => none

/-- The steps from type `source` to type `target`, if there is a built-in conversion. -/
def planConversion? (source target : Ty) (checked : Bool) : Option (List ConvStep) :=
  if source = target || target = .nullable source then some []
  else if source = .nullable target then some [.unwrap]
  else if source.nonNullable.isPrimitive && target.nonNullable.isPrimitive then
    numericPlan? source target checked
  else referencePlan? source target

/-- The steps applied to a value, in order. -/
def applyConversion (v : Value) (steps : List ConvStep) : Except Cause Value :=
  steps.foldlM ConvStep.apply v

end ExprCompiler
