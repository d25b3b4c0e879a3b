/-
The events that a compilation reports: how each unit advances, and what became of it.
-/
import ExprCompiler.Code.Depth
import ExprCompiler.Decline
import ExprCompiler.Native.Lower

namespace ExprCompiler

/-- Levels of detail, from the least to the most. -/
inductive Level
  | error | warn | info | debug | trace
deriving DecidableEq, Repr, Inhabited

def Level.rank : Level → Nat
  | .error => 0 | .warn => 1 | .info => 2 | .debug => 3 | .trace => 4

/-- How far a unit has come. -/
inductive Stage
  | analyzing | analyzed | materializing | emitting | emitted | linked | failed
deriving DecidableEq, Repr, Inhabited

def Stage.name : Stage → String
  | .analyzing => "Analyzing"
  | .analyzed => "Analyzed"
  | .materializing => "Materializing"
  | .emitting => "Emitting"
  | .emitted => "Emitted"
  | .linked => "Linked"
  | .failed => "Failed"

inductive Event
  | stage (unit : String) (stage : Stage)
  | declined (unit : String) (reason : Decline)
  | nativeInstalled (unit : String) (instructions : Nat)
  | nativeSkipped (unit : String) (reason : SkipReason)
  | nativeFailed (unit : String) (problem : DepthProblem)
  | compiled (unit : String) (arity : Nat) (strategy : Option Strategy) (items instructions : Nat)
  /-- The tree is evaluated instead. -/
  | fallback (reason : Decline)

def Event.level : Event → Level
  | .stage _ _ => .trace
  | .nativeInstalled _ _ => .info
  | .nativeFailed _ _ => .warn
  | .declined _ _ | .nativeSkipped _ _ | .compiled _ _ _ _ _ | .fallback _ => .debug

end ExprCompiler
