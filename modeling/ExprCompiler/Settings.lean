/-
The settings of the compiler.
-/
import ExprCompiler.Closure

namespace ExprCompiler

/-- How much of the emitted code is checked again. -/
inductive Assurance
  | none
  | rootUnits
  | allUnits
deriving DecidableEq, Repr, Inhabited

/-- The names of the levels in settings. -/
def Assurance.names : List (String × Assurance) :=
  [("non_reproducible", .none), ("fast_assert", .rootUnits), ("full_assert", .allUnits)]

structure Settings where
  assurance : Assurance := .none
  /-- Closures of at most this many items are records. -/
  fixedFieldLimit : Nat := 10
  nativeEnabled : Bool := true
  /-- Longer units are not lowered to native code. -/
  maxNativeInstructions : Nat := 4096
  /-- Declined trees are evaluated. -/
  fallbackEnabled : Bool := true
deriving DecidableEq, Repr, Inhabited

namespace Settings

/-- Sets the limit for records, which is never above the largest record. -/
def withFixedFieldLimit (s : Settings) (limit : Nat) : Settings :=
  { s with fixedFieldLimit := min limit Layout.maxFields }

def verifiesAllUnits (s : Settings) : Bool :=
  s.assurance == .allUnits

def verifiesRootUnits (s : Settings) : Bool :=
  s.assurance != .none

end Settings

end ExprCompiler
