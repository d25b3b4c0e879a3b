/-
Readers of data. A reader knows the names declared so far, and it may allocate, because written
values are objects of the world in which the program will run.
-/
import ExprCompiler.Compile
import ExprCompiler.Datum
import ExprCompiler.Host.Script
import ExprCompiler.Invoke

namespace ExprCompiler

/-- Names with what they stand for, the latest first. -/
abbrev Names (α : Type) := List (String × α)

/-- What has been declared, and the session that holds the declared objects. -/
structure Environment where
  session : Session := {}
  classes : Names Class := Class.builtins.map fun c => (c.name, c)
  nextClass : Nat := Class.builtins.length
  delegates : Names Value := []
  methods : Names Method := []
  constructors : Names Constructor := []
  properties : Names Property := []
  indexers : Names Indexer := []
  operators : Overloads := []
  values : Names Value := []
  /-- In the order of declaration. -/
  statics : Names StaticRef := []
  params : Names Param := []
  nextParam : Nat := 0
  nodes : Names Tree := []
  nextNode : NodeId := 0
  routines : Array Routine := #[]

/-- The program that runs in an environment. -/
def Environment.program (s : Environment) : Program :=
  ⟨s.session.units, ⟨s.operators, Host.scripted s.routines⟩⟩

inductive ReadError
  /-- Something else was expected. -/
  | malformed (expected : String)
  | unknown (name : String)
  | defect (d : Defect)

abbrev ReadM := StateT Environment (Except ReadError)

namespace ReadM

def malformed {α : Type} (expected : String) : ReadM α :=
  throw (.malformed expected)

instance {α : Type} : Inhabited (ReadM α) := ⟨malformed ""⟩

/-- The value of an operation that may meet a defect. -/
def check {α : Type} : Except Defect α → ReadM α
  | .ok a => return a
  | .error d => throw (.defect d)

/-- Changes the world. -/
def change {α : Type} (f : World → α × World) : ReadM α :=
  modifyGet fun s =>
    let (a, world) := f s.session.world
    (a, { s with session.world := world })

/-- Changes the heap. -/
def allocate {α : Type} (f : Heap → α × Heap) : ReadM α :=
  change fun w =>
    let (a, heap) := f w.heap
    (a, { w with heap })

def world : ReadM World :=
  return (← get).session.world

def heap : ReadM Heap :=
  return (← world).heap

end ReadM

open ReadM

namespace Datum

variable {α β : Type}

/-! ## Shapes -/

/-- The items of a list; null is the empty list. -/
def many (read : Datum → ReadM α) : Datum → ReadM (List α)
  | .list items => items.mapM read
  | .null => return []
  | _ => malformed "a list"

def maybe (read : Datum → ReadM α) : Datum → ReadM (Option α)
  | .null => return none
  | d => some <$> read d

def pair (first : Datum → ReadM α) (second : Datum → ReadM β) : Datum → ReadM (α × β)
  | .list [a, b] => return (← first a, ← second b)
  | _ => malformed "a pair"

/-- A form as its head and the items that follow. -/
def form : Datum → ReadM (String × List Datum)
  | .list (.text head :: rest) => return (head, rest)
  | _ => malformed "a form"

/-- A reader that reads inner data by itself; the depth of the datum bounds how often. -/
def inward (step : (Datum → ReadM α) → Datum → ReadM α) (d : Datum) : ReadM α :=
  go (d.depth + 1) d
where
  go : Nat → Datum → ReadM α
    | 0, _ => malformed "less depth"
    | n + 1, d => step (go n) d

/-! ## Atoms -/

def string : Datum → ReadM String
  | .text s => return s
  | _ => malformed "a text"

def integer : Datum → ReadM Int
  | .int n => return n
  | _ => malformed "an integer"

def natural : Datum → ReadM Nat
  | .int (.ofNat n) => return n
  | _ => malformed "a natural number"

def boolean : Datum → ReadM Bool
  | .bool b => return b
  | _ => malformed "a boolean"

/-- An integer written as a text. -/
def decimal (d : Datum) : ReadM Int := do
  match (← d.string).toInt? with
  | some n => return n
  | none => malformed "a decimal"

/-! ## Names -/

/-- What a name stands for in a table. -/
def among (table : Names α) (d : Datum) : ReadM α := do
  let name ← d.string
  match table.lookup name with
  | some a => return a
  | none => throw (.unknown name)

/-- What a name stands for in the environment. -/
def named (table : Environment → Names α) (d : Datum) : ReadM α := do
  d.among (table (← get))

def cls : Datum → ReadM Class := named (·.classes)

def method : Datum → ReadM Method := named (·.methods)

def constructor : Datum → ReadM Constructor := named (·.constructors)

def indexer : Datum → ReadM Indexer := named (·.indexers)

def static : Datum → ReadM StaticRef := named (·.statics)

def property : Datum → ReadM Property := named (·.properties)

def param : Datum → ReadM Param := named (·.params)

/-- A name under which a value was declared or kept. -/
def valueName : Datum → ReadM Value := named (·.values)

def arithOp : Datum → ReadM ArithOp :=
  among ([.add, .sub, .mul, .div, .rem, .and, .or, .xor, .shl, .shr].map fun op => (op.name, op))

def cmpOp : Datum → ReadM CmpOp :=
  among ([.eq, .ne, .lt, .le, .gt, .ge].map fun op => (op.name, op))

def overflow : Datum → ReadM Overflow :=
  among ([.wrap, .signed, .unsigned].map fun mode => (mode.name, mode))

def itemKind : Datum → ReadM ItemKind :=
  among ([.constant, .param, .nested].map fun kind => (kind.name, kind))

def operator (d : Datum) : ReadM Operator := do
  match ← d.form with
  | ("arith", [op]) => return .arith (← op.arithOp)
  | ("cmp", [op]) => return .cmp (← op.cmpOp)
  | _ => malformed "an operator"

end Datum

end ExprCompiler
