/-
Fixed-width integers. A `Word` is a bit pattern with its kind (width and signedness). Arithmetic
is exact integer arithmetic on the words as integers, followed by the overflow rule of the requested
mode.
-/
import ExprCompiler.Operator

namespace ExprCompiler

/-- The four integer kinds. -/
inductive IntKind
  | i32 | i64 | u32 | u64
deriving DecidableEq, Repr, Inhabited

namespace IntKind

@[reducible] def width : IntKind → Nat
  | .i32 | .u32 => 32
  | .i64 | .u64 => 64

def signed : IntKind → Bool
  | .i32 | .i64 => true
  | .u32 | .u64 => false

/-- The number of words of a kind. -/
def size : IntKind → Nat
  | .i32 | .u32 => 4294967296
  | .i64 | .u64 => 18446744073709551616

theorem size_eq (k : IntKind) : k.size = Nat.pow 2 k.width := by
  cases k <;> rfl

/-- The unsigned kind of the same width. -/
def toUnsigned : IntKind → IntKind
  | .i32 | .u32 => .u32
  | .i64 | .u64 => .u64

def minInt (k : IntKind) : Int :=
  if k.signed then -(k.size / 2 : Nat) else 0

def maxInt (k : IntKind) : Int :=
  ((if k.signed then k.size / 2 else k.size : Nat) : Int) - 1

/-- The integers a kind can represent. -/
def Holds (k : IntKind) (n : Int) : Prop :=
  k.minInt ≤ n ∧ n ≤ k.maxInt

instance (k : IntKind) (n : Int) : Decidable (k.Holds n) :=
  inferInstanceAs (Decidable (_ ∧ _))

def name : IntKind → String
  | .i32 => "i32" | .i64 => "i64" | .u32 => "u32" | .u64 => "u64"

/-- The kind's name in the listing form of a value. -/
def tag : IntKind → String
  | .i32 => "I32" | .i64 => "I64" | .u32 => "U32" | .u64 => "U64"

end IntKind

/-- What an operation does with a result outside its range. `signed` and `unsigned` also say how
the operands are read. -/
inductive Overflow
  | wrap | signed | unsigned
deriving DecidableEq, Repr, Inhabited

namespace Overflow

def name : Overflow → String
  | .wrap => "Wrap" | .signed => "Signed" | .unsigned => "Unsigned"

def isChecked (mode : Overflow) : Bool :=
  mode != .wrap

end Overflow

/-- The two ways integer arithmetic fails. -/
inductive ArithError
  | overflow | divideByZero
deriving DecidableEq, Repr, Inhabited

/-- A fixed-width integer. -/
structure Word where
  kind : IntKind
  bits : BitVec kind.width
deriving DecidableEq, Repr

namespace Word

/-- The integer the bits stand for under the signedness of `k`. -/
def readAs (k : IntKind) (w : Word) : Int :=
  let n := w.bits.toNat
  if k.signed ∧ w.kind.size ≤ 2 * n then -(w.kind.size - n : Nat) else n

/-- A signed reading is the two's complement one. -/
theorem readAs_eq (k : IntKind) (w : Word) :
    w.readAs k = if k.signed then w.bits.toInt else w.bits.toNat := by
  obtain ⟨kind, bits⟩ := w
  cases h : k.signed
  · simp [readAs, h]
  · simp only [readAs, h, true_and, if_true, BitVec.toInt, IntKind.size_eq]
    by_cases hb : Nat.pow 2 kind.width ≤ 2 * bits.toNat
    · refine (if_pos hb).trans (Eq.trans ?_ (if_neg (Nat.not_lt.2 hb)).symm)
      have hn : bits.toNat < Nat.pow 2 kind.width := bits.isLt
      show -((Nat.pow 2 kind.width - bits.toNat : Nat) : Int) =
        bits.toNat - (Nat.pow 2 kind.width : Nat)
      omega
    · exact (if_neg hb).trans (if_pos (Nat.not_le.1 hb)).symm

/-- The integer a word stands for. -/
def value (w : Word) : Int :=
  w.readAs w.kind

/-- The word of kind `k` with the bits of `n` modulo `k.size`. -/
def ofNat (k : IntKind) (n : Nat) : Word :=
  ⟨k, .ofNatLT (n % k.size) (k.size_eq ▸ Nat.mod_lt n (by cases k <;> decide))⟩

/-- The word of kind `k` congruent to `n` modulo `k.size`. -/
def ofInt (k : IntKind) : Int → Word
  | .ofNat n => ofNat k n
  | .negSucc n => ofNat k (k.size - 1 - n % k.size)

theorem ofNat_eq (k : IntKind) (n : Nat) : ofNat k n = ⟨k, .ofNat k.width n⟩ := by
  cases k <;> rfl

theorem ofInt_eq (k : IntKind) (n : Int) : ofInt k n = ⟨k, .ofInt k.width n⟩ := by
  cases n with
  | ofNat n => simp [ofInt, ofNat_eq]
  | negSucc n =>
    rw [ofInt, ofNat_eq]
    congr 1
    apply BitVec.eq_of_toNat_eq
    cases k <;> simp [IntKind.size, IntKind.width, Int.negSucc_eq] <;> omega

instance : Inhabited Word := ⟨ofInt .i32 0⟩

/-- The exact result `n`, reduced to a word of kind `k`; a checked operation refuses an `n` that
the kind does not hold. -/
def settle (checked : Bool) (k : IntKind) (n : Int) : Except ArithError Word :=
  if checked && !decide (k.Holds n) then .error .overflow else .ok (ofInt k n)

/-- Quotient toward zero and its remainder. Both fail on a zero divisor and where the quotient
leaves the range, in every mode. -/
def divRem (k : IntKind) (x y : Int) (pick : Int → Int → Int) : Except ArithError Word :=
  if y = 0 then .error .divideByZero
  else if k.Holds (x.tdiv y) then .ok (ofInt k (pick x y))
  else .error .overflow

/-- The bit pattern combined from two words' bits by `f`. -/
def bitwise (f : Nat → Nat → Nat) (a b : Word) : Word :=
  ofNat a.kind (f a.bits.toNat b.bits.toNat)

/-- The places of a shift: the bits of a 32-bit amount below the width. -/
def places (w : Word) (n : BitVec 32) : Nat :=
  n.toNat &&& (w.kind.width - 1)

def shiftLeft (w : Word) (n : BitVec 32) : Word :=
  ⟨w.kind, w.bits <<< w.places n⟩

/-- Shift right, keeping the sign of a signed word. -/
def shiftRight (w : Word) (n : BitVec 32) : Word :=
  ⟨w.kind, if w.kind.signed then w.bits.sshiftRight (w.places n) else w.bits >>> w.places n⟩

/-- The bits of a word as a word of kind `k`. -/
def recast (k : IntKind) (w : Word) : Word :=
  ofNat k w.bits.toNat

/-- A binary operator in the arithmetic of the operands' kind. -/
def compute (op : ArithOp) (a b : Word) (checked : Bool) : Except ArithError Word :=
  match op with
  | .add => settle checked a.kind (a.value + b.value)
  | .sub => settle checked a.kind (a.value - b.value)
  | .mul => settle checked a.kind (a.value * b.value)
  | .div => divRem a.kind a.value b.value Int.tdiv
  | .rem => divRem a.kind a.value b.value Int.tmod
  | .and => .ok (bitwise (· &&& ·) a b)
  | .or => .ok (bitwise (· ||| ·) a b)
  | .xor => .ok (bitwise (· ^^^ ·) a b)
  | .shl => .ok (a.shiftLeft (.ofInt 32 b.value))
  | .shr => .ok (a.shiftRight (.ofInt 32 b.value))

/-- A binary operator on two words of one kind. A mode of the other signedness computes with the
bits as words of the other kind. -/
def arith (op : ArithOp) (a b : Word) (mode : Overflow) : Except ArithError Word :=
  match a.kind, mode with
  | .i32, .unsigned => (compute op (a.recast .u32) (b.recast .u32) true).map (recast .i32)
  | .i64, .unsigned => (compute op (a.recast .u64) (b.recast .u64) true).map (recast .i64)
  | .u32, .signed => (compute op (a.recast .i32) (b.recast .i32) true).map (recast .u32)
  | .u64, .signed => (compute op (a.recast .i64) (b.recast .i64) true).map (recast .u64)
  | _, mode => compute op a b mode.isChecked

/-- Negation in the word's own kind; checked whenever a mode other than `wrap` is asked for. -/
def negate (w : Word) (mode : Overflow) : Except ArithError Word :=
  compute .sub (ofInt w.kind 0) w mode.isChecked

def complement (w : Word) : Word :=
  ⟨w.kind, ~~~w.bits⟩

/-- The source of a conversion: read in its own kind, or as unsigned in the unsigned mode. -/
def source (w : Word) (mode : Overflow) : Int :=
  match mode with
  | .unsigned => w.readAs w.kind.toUnsigned
  | _ => w.value

/-- Conversion to kind `k`. -/
def convert (w : Word) (k : IntKind) (mode : Overflow) : Except ArithError Word :=
  settle mode.isChecked k (w.source mode)

/-- The word as a signed 64-bit integer, if it is one. -/
def toI64? (w : Word) : Option Int :=
  if IntKind.i64.Holds w.value then some w.value else none

/-- The word as an array position, if it is not negative. -/
def toIndex? (w : Word) : Option Nat :=
  if 0 ≤ w.value then some w.value.toNat else none

end Word

end ExprCompiler
