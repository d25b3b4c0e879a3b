/-
The operators of expression trees and the names they carry in messages and listings.
-/
namespace ExprCompiler

/-- Binary arithmetic, bitwise and shift operators. -/
inductive ArithOp
  | add | sub | mul | div | rem | and | or | xor | shl | shr
deriving DecidableEq, Repr, Inhabited

/-- Comparison operators. -/
inductive CmpOp
  | eq | ne | lt | le | gt | ge
deriving DecidableEq, Repr, Inhabited

/-- Unary operators; `not` is logical on booleans and a complement on integers. -/
inductive UnaryOp
  | negate | not | arrayLength
deriving DecidableEq, Repr, Inhabited

/-- Short-circuit operators. -/
inductive LogicalOp
  | andAlso | orElse
deriving DecidableEq, Repr, Inhabited

/-- An operator a class may overload. -/
inductive Operator
  | arith (op : ArithOp)
  | cmp (op : CmpOp)
deriving DecidableEq, Repr, Inhabited

def ArithOp.name : ArithOp → String
  | .add => "Add" | .sub => "Sub" | .mul => "Mul" | .div => "Div" | .rem => "Rem"
  | .and => "And" | .or => "Or" | .xor => "Xor" | .shl => "Shl" | .shr => "Shr"

/-- Shifts take their amount from any integer kind; the other operators need equal kinds. -/
def ArithOp.isShift : ArithOp → Bool
  | .shl | .shr => true
  | _ => false

def CmpOp.name : CmpOp → String
  | .eq => "Eq" | .ne => "Ne" | .lt => "Lt" | .le => "Le" | .gt => "Gt" | .ge => "Ge"

/-- Equality and inequality, the two comparisons every pair of values has. -/
def CmpOp.isEquality : CmpOp → Bool
  | .eq | .ne => true
  | _ => false

def UnaryOp.name : UnaryOp → String
  | .negate => "Negate" | .not => "Not" | .arrayLength => "ArrayLength"

def LogicalOp.name : LogicalOp → String
  | .andAlso => "AndAlso" | .orElse => "OrElse"

/-- Whether an ordering satisfies a comparison; `none` stands for unordered operands. -/
def CmpOp.holds : CmpOp → Option Ordering → Bool
  | .eq, o => o == some .eq
  | .ne, o => o != some .eq
  | .lt, o => o == some .lt
  | .le, o => o == some .lt || o == some .eq
  | .gt, o => o == some .gt
  | .ge, o => o == some .gt || o == some .eq

end ExprCompiler
