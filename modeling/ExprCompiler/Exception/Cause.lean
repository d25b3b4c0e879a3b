/-
Why an operation throws. A cause determines the class and the message of the exception object.
-/
import ExprCompiler.Defect

namespace ExprCompiler

/-- Operations that do not apply to their operands. -/
inductive Misuse
  | operatorOn (op : ArithOp) (ty : Ty)
  | operatorFor (op : ArithOp) (left right : Value)
  | noOperator (op : String) (left right : Ty)
  | shiftAmount
  | shift (v : Value)
  | negate (v : Value)
  | complement (v : Value)
  | noNumericConversion (target : Ty)
  | emptyNullable
  | noField (v : Value) (index : Nat)
  | unaddressable (v : Value) (index : Nat)
  | notIndex (v : Value)
  | notArray (v : Value)
  | negativeLength
  | notCallable (v : Value)
  | argumentCount (callee : String) (expected given : Nat)
  | closurePresence (callee : String) (given : Bool)
  | closureExpected (callee : String)
  | unbound (param : String)
  | callMismatch (method : String)
  | readMismatch (member : String)
  | readOnly (target : String)
  | noSetter (property : String)
  | notAssignable (kind : String)
  | rethrowOutside

/-- Why an operation throws. -/
inductive Cause
  | nullReference
  | divideByZero
  | overflow
  | invalidCast (v : Value) (ty : Ty)
  | indexOutOfRange (index : Nat)
  | misuse (m : Misuse)

def ArithError.cause : ArithError → Cause
  | .overflow => .overflow
  | .divideByZero => .divideByZero

/-- An operation ends by throwing or in a defect. -/
inductive Failure
  | raised (c : Cause)
  | defect (d : Defect)

def Misuse.message (h : Heap) : Misuse → String
  | .operatorOn op ty => "operator " ++ op.name ++ " is not defined for " ++ ty.text
  | .operatorFor op l r =>
    "operator " ++ op.name ++ " is not defined for " ++ l.describe h ++ " and " ++ r.describe h
  | .noOperator op l r => "no " ++ op ++ " operator for " ++ l.text ++ " and " ++ r.text
  | .shiftAmount => "shift amount must be an integer"
  | .shift v => "cannot shift " ++ v.describe h
  | .negate v => "cannot negate " ++ v.describe h
  | .complement v => "cannot complement " ++ v.describe h
  | .noNumericConversion ty => "no numeric conversion to " ++ ty.text
  | .emptyNullable => "Nullable object must have a value"
  | .noField v index => v.describe h ++ " has no field " ++ toString index
  | .unaddressable v index => "cannot address field " ++ toString index ++ " of " ++ v.describe h
  | .notIndex v => v.describe h ++ " is not a valid array index"
  | .notArray v => v.describe h ++ " is not an array"
  | .negativeLength => "array length must not be negative"
  | .notCallable v => v.describe h ++ " is not callable"
  | .argumentCount callee expected given => s!"{callee} expects {expected} arguments, got {given}"
  | .closurePresence callee given =>
    callee ++ " called " ++ (if given then "with" else "without") ++ " a closure"
  | .closureExpected callee => callee ++ " expects its closure as the first argument"
  | .unbound param => s!"parameter `{param}` is not bound"
  | .callMismatch method => "receiver mismatch calling " ++ method
  | .readMismatch member => "receiver mismatch reading " ++ member
  | .readOnly target => target ++ " is read-only"
  | .noSetter property => s!"property `{property}` has no setter"
  | .notAssignable kind => "assignment to " ++ kind
  | .rethrowOutside => "rethrow outside a catch body"

namespace Cause

def cls : Cause → Class
  | .nullReference => .nullReference
  | .divideByZero => .divideByZero
  | .overflow => .overflow
  | .invalidCast _ _ => .invalidCast
  | .indexOutOfRange _ => .indexOutOfRange
  | .misuse _ => .invalidOperation

def message (h : Heap) : Cause → String
  | .nullReference => "Object reference not set to an instance of an object"
  | .divideByZero => "Attempted to divide by zero"
  | .overflow => "Arithmetic operation resulted in an overflow"
  | .invalidCast v ty => "Unable to cast " ++ v.describe h ++ " to " ++ ty.text
  | .indexOutOfRange index => s!"Index {index} was outside the bounds of the array"
  | .misuse m => m.message h

end Cause

namespace Heap

/-- The exception object of a cause. -/
def raise (h : Heap) (c : Cause) : Value × Heap :=
  h.newObject c.cls #[.str (c.message h)]

/-- An exception object of a declared class. The message goes into field 0, which the class must
have. -/
def newException (h : Heap) (cls : Class) (message : String) : Except Defect (Value × Heap) :=
  match Field.zeros cls.fields with
  | [] => .error (.outOfBounds 0 0)
  | _ :: rest => .ok (h.newObject cls (Value.str message :: rest).toArray)

end Heap

/-! ## Exceptions as seen from outside -/

/-- The class name of a thrown object. -/
def Value.exceptionClass? : Value → Option String
  | .object o => some o.cls.name
  | _ => none

/-- The message of a thrown exception object. -/
def Value.exceptionMessage? (h : Heap) : Value → Option String
  | .object o =>
    if o.cls.derivesFrom Class.exception then
      match (h.fields o)[0]? with
      | some (Value.str s) => some s
      | _ => none
    else none
  | _ => none

/-- What is reported of an exception that nothing caught. -/
def Value.uncaught (h : Heap) (v : Value) : String :=
  "unhandled exception: " ++ v.text h

/-- The exception raised by throwing `v`: throwing null is itself a null reference. -/
def Value.thrown (h : Heap) : Value → Value × Heap
  | .null => h.raise .nullReference
  | v => (v, h)

end ExprCompiler
