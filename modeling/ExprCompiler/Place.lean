/-
Access to storage locations. A struct is changed in place: the location that holds it is read, the
struct is changed, and the changed struct is stored back.
-/
import ExprCompiler.World

namespace ExprCompiler

/-- How a computation reads and writes its variables. -/
structure Variables (Var ρ σ : Type) where
  read : Var → Act ρ σ Value
  write : Var → Value → Act ρ σ Unit

namespace Place

variable {Var ρ σ α : Type}

/-- The value at a place. -/
def read (vars : Variables Var ρ σ) : Place Var → Act ρ σ Value
  | .root var => vars.read var
  | .element a i => do
    match ((← Act.heap).items a)[i]? with
    | some v => return v
    | none => Act.raise (.indexOutOfRange i)
  | .objectField o i => do Act.attempt ((← Act.heap).loadField (.object o) i)
  | .field inner i => do
    let v ← inner.read vars
    Act.attempt ((← Act.heap).loadField v i)

/-- Stores a value at a place that has been read before. -/
def write (vars : Variables Var ρ σ) : Place Var → Value → Act ρ σ Unit
  | .root var, v => vars.write var v
  | .element a i, v => Act.allocate fun h => ((), h.setItem a i v)
  | .objectField o i, v => Act.allocate fun h => ((), h.setField o i v)
  | .field inner i, v => do
    let holder ← inner.read vars
    let (holder, h) ← Act.attempt ((← Act.heap).storeField holder i v)
    Act.setHeap h
    inner.write vars holder

/-- Stores what an operation on the value at a place has left. A defect stays the outcome, whatever
storing comes to. -/
def keep (vars : Variables Var ρ σ) (p : Place Var) (v : Value) : Except Stop α → Act ρ σ Unit
  | .ok _ | .error (.thrown _) => p.write vars v
  | .error _ => do
    let _ ← Act.observe (p.write vars v)

/-- Runs `f` on the value at a place and stores what `f` leaves, also when `f` has no result. -/
def update (vars : Variables Var ρ σ) (p : Place Var)
    (f : Value → Act ρ σ (Value × Except Stop α)) : Act ρ σ α := do
  let (v, result) ← f (← p.read vars)
  p.keep vars v result
  MonadExcept.ofExcept result

end Place

namespace Act

variable {ρ σ : Type}

/-- Stores into a field of the receiver, which comes back changed if it is a struct. -/
def storeField (receiver : Value) (index : Nat) (v : Value) :
    Act ρ σ (Value × Except Stop Unit) := do
  let (receiver, h) ← attempt ((← heap).storeField receiver index v)
  setHeap h
  return (receiver, .ok ())

end Act

end ExprCompiler
