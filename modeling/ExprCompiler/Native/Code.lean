/-
Native code: a machine without exceptions whose values are raw 64-bit slots. An integer is its
bits; a boolean is any slot that is not zero. The kinds of slots are known before the code runs and
leave no trace in it.
-/
import ExprCompiler.Value

namespace ExprCompiler

/-- What a slot stands for. -/
inductive SlotKind
  | int | bool
deriving DecidableEq, Repr, Inhabited

namespace SlotKind

def name : SlotKind → String
  | .int => "Int" | .bool => "Bool"

def ofTy? : Ty → Option SlotKind
  | .int .i64 => some .int
  | .bool => some .bool
  | _ => none

/-- The slot of a value of exactly this kind. -/
def toSlot? : SlotKind → Value → Option (UInt64)
  | .int, .int ⟨.i64, bits⟩ => some (.ofBitVec bits)
  | .bool, .bool b => some (if b then 1 else 0)
  | _, _ => none

/-- The value that a slot stands for. -/
def ofSlot : SlotKind → UInt64 → Value
  | .int, bits => .int ⟨.i64, bits.toBitVec⟩
  | .bool, bits => .bool (bits != 0)

end SlotKind

/-- The binary operations on slots. -/
inductive SlotOp
  | add | sub | mul | and | or | xor
deriving DecidableEq, Repr, Inhabited

def SlotOp.apply : SlotOp → UInt64 → UInt64 → UInt64
  | .add, a, b => a + b
  | .sub, a, b => a - b
  | .mul, a, b => a * b
  | .and, a, b => a &&& b
  | .or, a, b => a ||| b
  | .xor, a, b => a ^^^ b

/-- Signed comparison of two slots; the result is 0 or 1. -/
def SlotOp.compare (op : CmpOp) (a b : UInt64) : UInt64 :=
  if op.holds (some (Ord.compare a.toInt64 b.toInt64)) then 1 else 0

inductive NativeOp
  | nop
  | const (bits : UInt64)
  | load (slot : Nat)
  | store (slot : Nat)
  | dup
  | pop
  | binary (op : SlotOp)
  | negate
  | complement
  /-- Exchanges 0 and 1. -/
  | flip
  | compare (op : CmpOp)
  | jump (target : Nat)
  | jumpIf (target : Nat)
  | jumpUnless (target : Nat)
  | ret
  /-- Stands where control never comes. -/
  | trap
deriving DecidableEq, Inhabited

/-- The native code of a unit. -/
structure NativeCode where
  params : List SlotKind
  ret : SlotKind
  /-- The number of slots for local variables. -/
  locals : Nat
  ops : Array NativeOp
deriving DecidableEq

/-- The state of a native run. The slots of the arguments come before those of the locals. -/
structure NativeState where
  pc : Nat
  slots : Array (UInt64)
  stack : List (UInt64)

/-- What a native step leads to. -/
inductive NativeProgress
  | running (s : NativeState)
  | returned (bits : UInt64)
  | stuck

namespace NativeCode

def arity (c : NativeCode) : Nat :=
  c.params.length

/-- The slots of arguments that have exactly the kinds of the parameters. -/
def slots? : List SlotKind → List Value → Option (List (UInt64))
  | [], [] => some []
  | k :: ks, v :: vs => do
    let s ← k.toSlot? v
    let rest ← slots? ks vs
    some (s :: rest)
  | _, _ => none

/-- The state in which a call starts, if the arguments have the kinds of the parameters. -/
def start? (c : NativeCode) (args : List Value) : Option NativeState :=
  (slots? c.params args).map fun slots =>
    ⟨0, slots.toArray ++ Array.replicate c.locals 0, []⟩

/-- One step. -/
def step (c : NativeCode) (s : NativeState) : NativeProgress :=
  let next (stack : List (UInt64)) : NativeProgress := .running { s with pc := s.pc + 1, stack }
  let goto (pc : Nat) (stack : List (UInt64)) : NativeProgress := .running { s with pc, stack }
  match c.ops[s.pc]?.getD .trap, s.stack with
  | .nop, st => next st
  | .const bits, st => next (bits :: st)
  | .load i, st =>
    match s.slots[i]? with
    | some bits => next (bits :: st)
    | none => .stuck
  | .store i, a :: st =>
    .running { s with pc := s.pc + 1, slots := s.slots.setIfInBounds i a, stack := st }
  | .dup, a :: st => next (a :: a :: st)
  | .pop, _ :: st => next st
  | .binary op, b :: a :: st => next (op.apply a b :: st)
  | .negate, a :: st => next (-a :: st)
  | .complement, a :: st => next (~~~a :: st)
  | .flip, a :: st => next ((a ^^^ 1) :: st)
  | .compare op, b :: a :: st => next (SlotOp.compare op a b :: st)
  | .jump t, st => goto t st
  | .jumpIf t, a :: st => if a = 0 then next st else goto t st
  | .jumpUnless t, a :: st => if a = 0 then goto t st else next st
  | .ret, a :: _ => .returned a
  | _, _ => .stuck

/-- Runs at most `fuel` steps. -/
def run (c : NativeCode) : Nat → NativeState → Option (UInt64)
  | 0, _ => none
  | fuel + 1, s =>
    match c.step s with
    | .running s => c.run fuel s
    | .returned bits => some bits
    | .stuck => none

/-- The value of a call, if the arguments have the kinds of the parameters. -/
def call? (c : NativeCode) (fuel : Nat) (args : List Value) : Option Value := do
  let s ← c.start? args
  let bits ← c.run fuel s
  return c.ret.ofSlot bits

/-- The listing form of native code. -/
def describe (c : NativeCode) : String :=
  Text.record "NativeCode"
    [("params", Text.bracketed (c.params.map SlotKind.name)), ("ret", c.ret.name)]

end NativeCode

end ExprCompiler
