/-
The state that a running program changes, and computations over it. A computation may have a state
of its own beside the world: the variables of an activation, the frame of a machine. State changed
before an exception or a defect stays changed.
-/
import ExprCompiler.Closure
import ExprCompiler.Host
import ExprCompiler.Operation
import ExprCompiler.Tree

namespace ExprCompiler

/-- An instance of a lambda run by the evaluator. The captured variables are those visible where
the instance was created, innermost last; all calls of the instance share them. -/
structure Lambda where
  name : Option String
  params : List Param
  body : Tree
  captured : Array (Param × Value)

/-- The name under which a lambda reports. -/
def Lambda.label (l : Lambda) : String :=
  l.name.getD "lambda"

structure World where
  heap : Heap := {}
  closures : Array Closure := #[]
  lambdas : Array Lambda := #[]

namespace World

def newClosure (w : World) (c : Closure) : ClosureRef × World :=
  (⟨w.closures.size⟩, { w with closures := w.closures.push c })

def newLambda (w : World) (l : Lambda) : LambdaRef × World :=
  (⟨w.lambdas.size⟩, { w with lambdas := w.lambdas.push l })

/-- The contents of a closure. -/
def closure (w : World) (r : ClosureRef) : Closure :=
  w.closures[r.id]?.getD ⟨.indexed, #[]⟩

def setClosure (w : World) (r : ClosureRef) (c : Closure) : World :=
  { w with closures := w.closures.setIfInBounds r.id c }

def lambda? (w : World) (r : LambdaRef) : Option Lambda :=
  w.lambdas[r.id]?

end World

/-- What the host provides to a program. -/
structure Library where
  /-- The overloads that are registered when the program starts. -/
  operators : Overloads
  host : Host

/-- Calls a function value. -/
abbrev Invoker := Callable → List Value → World → Except Stop Value × World

/-- Runs a host function to its end, making the calls that it asks for. The receiver is given as
the function left it, also when the function ended without a value. -/
def HostAct.run (inv : Invoker) : HostAct → World → (Value × Except Stop Value) × World
  | .finish receiver result heap, w => ((receiver, result), { w with heap := heap })
  | .call receiver target args heap resume, w =>
    match inv target args { w with heap := heap } with
    | (.ok v, w) => (resume (.ok v) w.heap).run inv w
    | (.error (.thrown v), w) => (resume (.error v) w.heap).run inv w
    | (.error stop, w) => ((receiver, .error stop), w)

/-- A computation in fixed surroundings `ρ`, with a state `σ` of its own. -/
abbrev Act (ρ σ : Type) := ReaderT ρ (ExceptT Stop (StateM (σ × World)))

namespace Act

variable {ρ σ α : Type}

/-! ## State -/

@[inline] def own : Act ρ σ σ :=
  return (← get).1

@[inline] def setOwn (s : σ) : Act ρ σ Unit :=
  modify fun (_, w) => (s, w)

/-- Changes the own state and gives a value. -/
@[inline] def changeOwn (f : σ → α × σ) : Act ρ σ α :=
  modifyGet fun (s, w) =>
    let (a, s) := f s
    (a, (s, w))

@[inline] def modifyOwn (f : σ → σ) : Act ρ σ Unit :=
  modify fun (s, w) => (f s, w)

@[inline] def world : Act ρ σ World :=
  return (← get).2

@[inline] def heap : Act ρ σ Heap :=
  return (← world).heap

/-- Changes the world. -/
@[inline] def change (f : World → α × World) : Act ρ σ α :=
  modifyGet fun (s, w) =>
    let (a, w) := f w
    (a, (s, w))

/-- Changes the heap. -/
@[inline] def allocate (f : Heap → α × Heap) : Act ρ σ α :=
  change fun ⟨heap, closures, lambdas⟩ =>
    let (a, heap) := f heap
    (a, ⟨heap, closures, lambdas⟩)

@[inline] def setHeap (h : Heap) : Act ρ σ Unit :=
  allocate fun _ => ((), h)

/-- A computation on the world alone. -/
def onWorld (f : World → Except Stop α × World) : Act ρ σ α :=
  change f >>= MonadExcept.ofExcept

/-! ## Failures -/

/-- Throws an exception object. -/
def throwing (v : Value) : Act ρ σ α :=
  throw (.thrown v)

/-- Throws the exception of a cause. -/
def raise (c : Cause) : Act ρ σ α := do
  throwing (← allocate fun h => h.raise c)

def misuse (m : Misuse) : Act ρ σ α :=
  raise (.misuse m)

def defect (d : Defect) : Act ρ σ α :=
  throw (.defect d)

/-- The value of an operation that may have a cause to throw. -/
@[inline] def settle : Except Cause α → Act ρ σ α
  | .ok a => return a
  | .error c => raise c

/-- The value of an operation that may throw or meet a defect. -/
@[inline] def attempt : Except Failure α → Act ρ σ α
  | .ok a => return a
  | .error (.raised c) => raise c
  | .error (.defect d) => defect d

/-- The value of an operation that may meet a defect. -/
@[inline] def check : Except Defect α → Act ρ σ α
  | .ok a => return a
  | .error d => defect d

/-- Runs a computation and gives whatever it ended in as a value. -/
def observe (x : Act ρ σ α) : Act ρ σ (Except Stop α) := fun surroundings =>
  ExceptT.mk do return .ok (← (x surroundings).run)

/-- Runs a computation and gives its exception as a value. Defects pass on. -/
def caught (x : Act ρ σ α) : Act ρ σ (Except Value α) := do
  match ← observe x with
  | .ok a => return .ok a
  | .error (.thrown v) => return .error v
  | .error stop => throw stop

/-! ## Calls -/

/-- Calls a function value. -/
def invoke (inv : Invoker) (target : Value) (args : List Value) : Act ρ σ Value := do
  let f ← settle target.asCallable
  onWorld (inv f args)

/-- Calls a host function on a receiver, which comes back as the function left it. -/
def hostCall (lib : Library) (inv : Invoker) (fn : HostRef) (receiver : Value)
    (args : List Value) : Act ρ σ (Value × Except Stop Value) :=
  change fun w => (lib.host fn ⟨receiver, args⟩ w.heap).run inv w

/-- Calls a host function whose changes to the receiver are of no account. -/
def hostValue (lib : Library) (inv : Invoker) (fn : HostRef) (receiver : Value)
    (args : List Value) : Act ρ σ Value := do
  let (_, result) ← hostCall lib inv fn receiver args
  MonadExcept.ofExcept result

end Act

end ExprCompiler
