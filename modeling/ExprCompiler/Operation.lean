/-
The operations on values that the evaluator, the machine and the host share. Null operands are
lifted: arithmetic on null is null, and null is ordered with nothing.
-/
import ExprCompiler.Exception.Cause

namespace ExprCompiler

namespace Value

/-! ## Arithmetic -/

/-- The integer operators' outcome as a value or a cause. -/
def ofWord : Except ArithError Word → Except Cause Value
  | .ok w => .ok (.int w)
  | .error e => .error e.cause

/-- The amount of a shift: any integer that fits a signed 64-bit one. -/
def shiftAmount : Value → Except Cause Int
  | .int w =>
    match w.toI64? with
    | some n => .ok n
    | none => .error (.misuse .shiftAmount)
  | _ => .error (.misuse .shiftAmount)

def shift (op : ArithOp) (v amount : Value) : Except Cause Value :=
  match amount with
  | .null => .ok .null
  | amount =>
    match amount.shiftAmount with
    | .error c => .error c
    | .ok n =>
      match v with
      | .null => .ok .null
      | .int w =>
        let by_ := BitVec.ofInt 32 n
        .ok (.int (if op = .shl then w.shiftLeft by_ else w.shiftRight by_))
      | v => .error (.misuse (.shift v))

def floatArith (op : ArithOp) (x y : Float) : Except Cause Value :=
  match op with
  | .add => .ok (.f64 (x + y))
  | .sub => .ok (.f64 (x - y))
  | .mul => .ok (.f64 (x * y))
  | .div => .ok (.f64 (x / y))
  | .rem => .ok (.f64 (Double.remainder x y))
  | op => .error (.misuse (.operatorOn op .f64))

def boolArith (op : ArithOp) (x y : Bool) : Except Cause Value :=
  match op with
  | .and => .ok (.bool (x && y))
  | .or => .ok (.bool (x || y))
  | .xor => .ok (.bool (x != y))
  | op => .error (.misuse (.operatorOn op .bool))

/-- A binary arithmetic, bitwise or shift operator. -/
def arith (op : ArithOp) (a b : Value) (mode : Overflow) : Except Cause Value :=
  if op.isShift then shift op a b
  else
    match a, b with
    | .null, _ | _, .null => .ok .null
    | .int x, .int y =>
      if x.kind = y.kind then ofWord (x.arith op y mode)
      else .error (.misuse (.operatorFor op a b))
    | .f64 x, .f64 y => floatArith op x y
    | .bool x, .bool y => boolArith op x y
    | a, b => .error (.misuse (.operatorFor op a b))

/-- Arithmetic negation. -/
def negate (v : Value) (mode : Overflow) : Except Cause Value :=
  match v with
  | .null => .ok .null
  | .int w => ofWord (w.negate mode)
  | .f64 x => .ok (.f64 (-x))
  | v => .error (.misuse (.negate v))

/-- Logical negation of booleans, bitwise complement of integers. -/
def complement : Value → Except Cause Value
  | .null => .ok .null
  | .bool b => .ok (.bool !b)
  | .int w => .ok (.int w.complement)
  | v => .error (.misuse (.complement v))

/-! ## Comparison -/

def floatOrder (x y : Float) : Option Ordering :=
  if x < y then some .lt
  else if x == y then some .eq
  else if y < x then some .gt
  else none

/-- The order of two primitives of one type; nothing else is ordered. -/
def order? : Value → Value → Option (Option Ordering)
  | .bool x, .bool y => some (some (compare x.toNat y.toNat))
  | .int x, .int y => if x.kind = y.kind then some (some (compare x.value y.value)) else none
  | .f64 x, .f64 y => some (floatOrder x y)
  | .str x, .str y => some (some (compare x y))
  | _, _ => none

/-- Comparison of primitives. Two nulls are equal and null is ordered with nothing; other values
have equality only. -/
def compareBy (op : CmpOp) (a b : Value) : Bool :=
  if a.isNull || b.isNull then
    match op with
    | .eq => a.isNull && b.isNull
    | .ne => !(a.isNull && b.isNull)
    | _ => false
  else
    match order? a b with
    | some o => op.holds o
    | none => if op.isEquality then a.same b == (op == .eq) else false

/-! ## Conversion -/

/-- A number converted to kind `k`. -/
def toKind (k : IntKind) (mode : Overflow) : Value → Except Cause Value
  | .int w => ofWord (w.convert k mode)
  | .f64 x => if mode.isChecked then ofWord (Double.toWord? k x) else .ok (.int (Double.clamp k x))
  | v => .ok v

/-- Numeric conversion. -/
def convert (v : Value) (target : Ty) (mode : Overflow) : Except Cause Value :=
  match v with
  | .null => .ok .null
  | .bool b => if target.nonNullable = .bool then .ok (.bool b) else .error (.invalidCast v target)
  | .int w =>
    match target.nonNullable with
    | .int k => toKind k mode v
    | .f64 => .ok (.f64 (Float.ofInt (w.source mode)))
    | ty => .error (.misuse (.noNumericConversion ty))
  | .f64 _ =>
    match target.nonNullable with
    | .int k => toKind k mode v
    | .f64 => .ok v
    | ty => .error (.misuse (.noNumericConversion ty))
  | v => .error (.invalidCast v target)

/-- The value inside a nullable. -/
def unwrap : Value → Except Cause Value
  | .null => .error (.misuse .emptyNullable)
  | v => .ok v

/-- Checked reading of a boxed value as a value type. -/
def unbox (v : Value) (ty : Ty) : Except Cause Value :=
  if v.isNull then if ty.admitsNull then .ok v else .error .nullReference
  else if v.hasType ty then .ok v
  else .error (.invalidCast v ty)

/-- Checked reference cast; null passes every cast. -/
def castClass (v : Value) (ty : Ty) : Except Cause Value :=
  if v.isNull || v.hasType ty then .ok v else .error (.invalidCast v ty)

/-- Concatenation of texts; null is empty. -/
def concat (h : Heap) (a b : Value) : Value :=
  let part (v : Value) := if v.isNull then "" else v.text h
  .str (part a ++ part b)

end Value

/-! ## Fields and elements -/

namespace Heap

open Value

/-- Field `index` of an object or a struct. -/
def loadField (h : Heap) (receiver : Value) (index : Nat) : Except Failure Value :=
  match receiver with
  | .object o =>
    match (h.fields o)[index]? with
    | some v => .ok v
    | none => .error (.defect (.outOfBounds (h.fields o).size index))
  | .struct _ fs =>
    match fs[index]? with
    | some v => .ok v
    | none => .error (.defect (.outOfBounds fs.length index))
  | .null => .error (.raised .nullReference)
  | v => .error (.raised (.misuse (.noField v index)))

/-- Writes field `index`; yields the receiver, which is changed if it is a struct, and the heap,
which is changed if it is an object. -/
def storeField (h : Heap) (receiver : Value) (index : Nat) (v : Value) :
    Except Failure (Value × Heap) :=
  match receiver with
  | .object o =>
    if index < (h.fields o).size then .ok (receiver, h.setField o index v)
    else .error (.defect (.outOfBounds (h.fields o).size index))
  | .struct c fs =>
    if index < fs.length then .ok (.struct c (fs.set index v), h)
    else .error (.defect (.outOfBounds fs.length index))
  | .null => .error (.raised .nullReference)
  | r => .error (.raised (.misuse (.noField r index)))

end Heap

namespace Value

/-- The position an index operand names. -/
def position : Value → Except Cause Nat
  | .int w =>
    match w.toIndex? with
    | some i => .ok i
    | none => .error (.indexOutOfRange 0)
  | v => .error (.misuse (.notIndex v))

/-- The array a value refers to. -/
def asArray : Value → Except Cause ArrayRef
  | .array a => .ok a
  | .null => .error .nullReference
  | v => .error (.misuse (.notArray v))

end Value

namespace Heap

/-- The location of an element: the array and a position inside it. -/
def elementAt (h : Heap) (array index : Value) : Except Cause (ArrayRef × Nat) := do
  let a ← array.asArray
  let i ← index.position
  if i < (h.items a).size then .ok (a, i) else .error (.indexOutOfRange i)

def arrayGet (h : Heap) (array index : Value) : Except Cause Value := do
  let (a, i) ← h.elementAt array index
  .ok ((h.items a)[i]?.getD .null)

def arraySet (h : Heap) (array index v : Value) : Except Cause Heap := do
  let (a, i) ← h.elementAt array index
  .ok (h.setItem a i v)

def arrayLength (h : Heap) (array : Value) : Except Cause Value := do
  let a ← array.asArray
  .ok (.i32 (h.items a).size)

/-- The largest number of elements an array can have. -/
def maxElements : Nat := Nat.pow 2 58 - 1

/-- An array of that many zeros. -/
def newArrayOfLength (h : Heap) (elem : Ty) (length : Value) : Except Failure (Value × Heap) :=
  let size : Except Cause Nat := match length with
    | .int ⟨.i32, bits⟩ =>
      if bits.toInt < 0 then .error (.misuse .negativeLength) else length.position
    | length => length.position
  match size with
  | .error c => .error (.raised c)
  | .ok n =>
    if n ≤ maxElements then .ok (h.newArray elem (Array.replicate n elem.zero))
    else .error (.defect .capacityOverflow)

end Heap

/-! ## Readings -/

namespace Value

def bool? : Value → Option Bool
  | .bool b => some b
  | _ => none

/-- The number of a 32-bit signed integer. -/
def i32? : Value → Option Int
  | .int ⟨.i32, bits⟩ => some bits.toInt
  | _ => none

/-- The number of any integer that fits a signed 64-bit one. -/
def i64? : Value → Option Int
  | .int w => w.toI64?
  | _ => none

def f64? : Value → Option Float
  | .f64 x => some x
  | _ => none

def str? : Value → Option String
  | .str s => some s
  | _ => none

end Value

/-- The field of that name of an object or a struct. -/
def Heap.fieldNamed? (h : Heap) (v : Value) (name : String) : Except Failure (Option Value) :=
  let index? := match v with
    | .object o => o.cls.fieldIndex? name
    | .struct c _ => c.fieldIndex? name
    | _ => none
  match index? with
  | some i => (h.loadField v i).map some
  | none => .ok none

/-- The function a value stands for. -/
def Value.asCallable : Value → Except Cause Callable
  | .func f => .ok f
  | .null => .error .nullReference
  | v => .error (.misuse (.notCallable v))

end ExprCompiler
