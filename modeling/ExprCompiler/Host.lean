/-
Host functions. The host sees the heap only. A call of one of its functions either ends, with a
result and the receiver as it left it, or asks for a call of a function value and goes on with the
outcome. Any finite such behaviour is a host function.
-/
import ExprCompiler.Exception.Cause

namespace ExprCompiler

/-- How a computation ends without a value. -/
inductive Stop
  /-- An exception left it. -/
  | thrown (v : Value)
  | defect (d : Defect)
  /-- The bound on the number of steps was reached. -/
  | exhausted

/-- A call of a host function. Static functions have null as their receiver. -/
structure HostCall where
  receiver : Value
  args : List Value

/-- What a host function does next. The receiver is always given as it stands at that point. -/
inductive HostAct
  | finish (receiver : Value) (result : Except Stop Value) (heap : Heap)
  | call (receiver : Value) (target : Callable) (args : List Value) (heap : Heap)
      (resume : Except Value Value → Heap → HostAct)

/-- The behaviour of all host functions. -/
abbrev Host := HostRef → HostCall → Heap → HostAct

namespace HostAct

/-- Ends by throwing `v`. -/
def throwing (receiver v : Value) (h : Heap) : HostAct :=
  .finish receiver (.error (.thrown v)) h

/-- Ends by throwing the exception of a cause. -/
def raising (receiver : Value) (c : Cause) (h : Heap) : HostAct :=
  let (v, h) := h.raise c
  throwing receiver v h

/-- Ends in a failed operation. -/
def failing (receiver : Value) (f : Failure) (h : Heap) : HostAct :=
  match f with
  | .raised c => raising receiver c h
  | .defect d => .finish receiver (.error (.defect d)) h

end HostAct

end ExprCompiler
