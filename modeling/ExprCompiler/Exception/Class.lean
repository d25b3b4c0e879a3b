/-
The built-in exception classes. Field 0 of each is the message.
-/
import ExprCompiler.Ty

namespace ExprCompiler

namespace Class

/-- The root of the exception classes. -/
def exception : Class :=
  (ClassDraft.field { name := "Exception" } "message" .str).finish 0

/-- A built-in class below `exception`. -/
def builtin (serial : Nat) (name : String) : Class :=
  (ClassDraft.extending { name := name } exception).finish serial

def nullReference : Class := builtin 1 "NullReferenceException"

def divideByZero : Class := builtin 2 "DivideByZeroException"

def overflow : Class := builtin 3 "OverflowException"

def invalidCast : Class := builtin 4 "InvalidCastException"

def indexOutOfRange : Class := builtin 5 "IndexOutOfRangeException"

def invalidOperation : Class := builtin 6 "InvalidOperationException"

/-- The built-in classes, in the order of their serial numbers. -/
def builtins : List Class :=
  [exception, nullReference, divideByZero, overflow, invalidCast, indexOutOfRange,
    invalidOperation]

end Class

end ExprCompiler
