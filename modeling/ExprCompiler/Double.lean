/-
Doubles, taken apart into sign, mantissa and exponent: their integer part, their exact remainder,
and the shortest decimal text that reads back as the same double.
-/
import ExprCompiler.Word

namespace ExprCompiler

namespace Double

/-- What a double stands for; a finite one is `± mantissa * 2 ^ exponent`. -/
inductive View
  | nan
  | infinite (negative : Bool)
  | finite (negative : Bool) (mantissa : Nat) (exponent : Int)
deriving DecidableEq, Repr

def view (x : Float) : View :=
  let bits := x.toBits.toNat
  let negative := bits / Nat.pow 2 63 == 1
  let field : Nat := bits / Nat.pow 2 52 % Nat.pow 2 11
  let fraction : Nat := bits % Nat.pow 2 52
  if field = 2047 then
    if fraction = 0 then .infinite negative else .nan
  else if field = 0 then .finite negative fraction (-1074)
  else .finite negative (Nat.pow 2 52 + fraction) (field - 1075)

/-- The integer part of `mantissa * 2 ^ exponent`. -/
def wholePart (mantissa : Nat) (exponent : Int) : Nat :=
  if 0 ≤ exponent then mantissa * Nat.pow 2 exponent.toNat
  else mantissa / Nat.pow 2 (-exponent).toNat

def signedBy (negative : Bool) (n : Nat) : Int :=
  if negative then -n else n

/-! ## Conversion to words -/

/-- The integer part as a word of kind `k`; no word stands for a value out of range. -/
def toWord? (k : IntKind) (x : Float) : Except ArithError Word :=
  match view x with
  | .finite negative m e =>
    let n := signedBy negative (wholePart m e)
    if k.Holds n then .ok (Word.ofInt k n) else .error .overflow
  | _ => .error .overflow

/-- The integer part, moved to the nearest end of the range of `k` where it lies outside; zero
for a double that is no number. -/
def clamp (k : IntKind) (x : Float) : Word :=
  let n := match view x with
    | .nan => 0
    | .infinite negative => if negative then k.minInt else k.maxInt
    | .finite negative m e => signedBy negative (wholePart m e)
  Word.ofInt k (max k.minInt (min k.maxInt n))

/-! ## Remainder -/

def notANumber : Float := 0.0 / 0.0

def assemble (negative : Bool) (mantissa : Nat) (exponent : Int) : Float :=
  let x := Float.scaleB (Float.ofNat mantissa) exponent
  if negative then -x else x

/-- The remainder of the quotient rounded toward zero, with the sign of `x`. It is exact: both
operands are brought to the smaller exponent, where the remainder has at most 53 bits. -/
def remainder (x y : Float) : Float :=
  match view x, view y with
  | .nan, _ | _, .nan | .infinite _, _ => notANumber
  | .finite _ _ _, .infinite _ => x
  | .finite nx mx ex, .finite _ my ey =>
    if my = 0 then notANumber
    else if mx = 0 then x
    else
      let e := min ex ey
      let a := mx * Nat.pow 2 (ex - e).toNat
      let b := my * Nat.pow 2 (ey - e).toNat
      assemble nx (a % b) e

/-! ## Shortest decimal text -/

/-- A positive rational `num / den` and the interval of rationals that round to the same double,
over the same denominator. The ends belong to the interval when `closed`. -/
structure Target where
  num : Nat
  low : Nat
  high : Nat
  den : Nat
  closed : Bool

/-- The rounding interval of `mantissa * 2 ^ exponent`. The lower neighbour of a power of two is
half as far away as the upper one. -/
def Target.of (mantissa : Nat) (exponent : Int) : Target :=
  let e := exponent - 2
  let up := Nat.pow 2 e.toNat
  let narrow := mantissa = Nat.pow 2 52 ∧ -1074 < exponent
  { num := 4 * mantissa * up
    low := (4 * mantissa - (if narrow then 1 else 2)) * up
    high := (4 * mantissa + 2) * up
    den := Nat.pow 2 (-e).toNat
    closed := mantissa % 2 == 0 }

/-- The number of leading decimal zeros to skip, at least one, before `num / den` reaches one. -/
def leadingZeros (num den : Nat) : Nat → Nat
  | 0 => 1
  | fuel + 1 => if den ≤ num * 10 then 1 else leadingZeros (num * 10) den fuel + 1

/-- The `k` with `10 ^ (k - 1) ≤ num / den < 10 ^ k`. -/
def Target.magnitude (t : Target) : Int :=
  if t.den ≤ t.num then (Nat.toDigits 10 (t.num / t.den)).length
  else 1 - (leadingZeros t.num t.den 400 : Int)

/-- A decimal `coefficient * 10 ^ exponent`. -/
structure Decimal where
  coefficient : Nat
  exponent : Int

/-- The neighbour of the target on the grid of multiples of `10 ^ q` that rounds to the target;
of two the nearer, of two equally near the larger. -/
def Target.onGrid? (t : Target) (q : Int) : Option Decimal :=
  let grow := Nat.pow 10 (-q).toNat
  let unit := Nat.pow 10 q.toNat * t.den
  let inside (n : Nat) : Bool :=
    if t.closed then t.low * grow ≤ n && n ≤ t.high * grow
    else t.low * grow < n && n < t.high * grow
  let value := t.num * grow
  let c := value / unit
  let below := inside (c * unit)
  let above := inside ((c + 1) * unit)
  if above && (!below || (c + 1) * unit - value ≤ value - c * unit) then some ⟨c + 1, q⟩
  else if below then some ⟨c, q⟩
  else none

/-- The first grid with a hit, going from one digit to seventeen. -/
def firstGrid (t : Target) (k : Int) : Nat → Nat → Decimal
  | digits, 0 =>
    ⟨t.num * Nat.pow 10 (digits - k).toNat / (t.den * Nat.pow 10 (k - digits).toNat), k - digits⟩
  | digits, fuel + 1 => (t.onGrid? (k - digits)).getD (firstGrid t k (digits + 1) fuel)

/-- The decimal with the fewest digits that reads back as the target. -/
def Target.shortest (t : Target) : Decimal :=
  firstGrid t t.magnitude 1 17

/-- A decimal in positional notation, without superfluous zeros. -/
def Decimal.positional (d : Decimal) : String :=
  let digits := Nat.toDigits 10 d.coefficient
  let point := (digits.length : Int) + d.exponent
  let kept := (digits.reverse.dropWhile (· == '0')).reverse
  if point ≤ 0 then
    "0." ++ String.ofList (List.replicate (-point).toNat '0' ++ kept)
  else
    let n := point.toNat
    let whole := String.ofList (kept.take n ++ List.replicate (n - kept.length) '0')
    let fraction := kept.drop n
    if fraction.isEmpty then whole else whole ++ "." ++ String.ofList fraction

/-- The text of a double: always positional, no point on a whole number, a sign on negative
zero. -/
def text (x : Float) : String :=
  match view x with
  | .nan => "NaN"
  | .infinite negative => if negative then "-inf" else "inf"
  | .finite negative m e =>
    let magnitude := if m = 0 then "0" else ((Target.of m e).shortest).positional
    if negative then "-" ++ magnitude else magnitude

end Double

end ExprCompiler
