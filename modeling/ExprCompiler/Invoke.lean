/-
Calls of function values. Compiled units, evaluated lambdas and host functions call each other
without limit; `fuel` bounds the depth of such calls and the steps of each of them.
-/
import ExprCompiler.Capture
import ExprCompiler.Eval
import ExprCompiler.Machine

namespace ExprCompiler

/-- What is fixed while a program runs. -/
structure Program where
  units : Array CodeUnit
  library : Library

namespace Program

/-- Calls a host function as a function value. -/
def callHost (p : Program) (inv : Invoker) (fn : HostRef) (args : List Value) (w : World) :
    Except Stop Value × World :=
  let ((_, result), w) := (p.library.host fn ⟨.null, args⟩ w.heap).run inv w
  (result, w)

/-- Calls a function value. -/
def invoke (p : Program) : Nat → Invoker
  | 0, _, _, w => (.error .exhausted, w)
  | fuel + 1, f, args, w =>
    match f with
    | .code unit closure =>
      match p.units[unit.id]? with
      | some u => u.invoke p.library (p.invoke fuel) fuel closure args w
      | none => (.error (.defect (.dangling unit.id)), w)
    | .interpreted l => Eval.call p.library (p.invoke fuel) l args w
    | .host fn => p.callHost (p.invoke fuel) fn args w

/-- Evaluates a tree over parameters. -/
def evaluate (p : Program) (fuel : Nat) (body : Tree) (params : List Param) (args : List Value) :
    World → Except Stop Value × World :=
  Eval.evaluate p.library (p.invoke fuel) body params args

/-- Calls a value as a function. -/
def invokeValue (p : Program) (fuel : Nat) (f : Value) (args : List Value) (w : World) :
    Except Stop Value × World :=
  match f.asCallable with
  | .ok f => p.invoke fuel f args w
  | .error c =>
    let (v, heap) := w.heap.raise c
    (.error (.thrown v), { w with heap := heap })

/-- Calls an artifact. A curryable one takes its closure as the first argument. -/
def invokeArtifact (p : Program) (fuel : Nat) (a : Artifact) (args : List Value) (w : World) :
    Except Stop Value × World :=
  match a, args with
  | .bare u, args => p.invoke fuel (.code u none) args w
  | .bound u c, args => p.invoke fuel (.code u (some c)) args w
  | .curryable u _, .closure c :: rest => p.invoke fuel (.code u (some c)) rest w
  | .curryable u _, _ => CodeUnit.refuse (.closureExpected u.name) w

end Program

end ExprCompiler
