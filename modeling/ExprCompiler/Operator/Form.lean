/-
What an arithmetic or comparison node does, as fixed by the types of its operands: a method given
with the node, a built-in operation, or an overload registered with a class.
-/
import ExprCompiler.Member

namespace ExprCompiler

inductive ArithForm
  | method (m : Method)
  | concat
  | builtin (mode : Overflow)
deriving DecidableEq

/-- The form of an arithmetic node, if its operand types have one. -/
def ArithForm.choose? (table : Overloads) (op : ArithOp) (left right : Ty) (checked : Bool)
    (given : Option Method) : Option ArithForm :=
  let (l, r) := (left.nonNullable, right.nonNullable)
  match given with
  | some m => some (.method m)
  | none =>
    if op = .add ∧ (left = .str ∨ right = .str) then some .concat
    else if op.isShift ∧ l.isInteger ∧ r.isInteger then some (.builtin .wrap)
    else if l.isPrimitive ∧ l = r then some (.builtin (Overflow.select checked left))
    else (table.resolve? (.arith op) left right).map .method

inductive CompareForm
  | method (m : Method)
  | builtin
  /-- Generic equality, or its negation. -/
  | generic
deriving DecidableEq

/-- Both operands are of one primitive type, or strings, under their nullables. -/
def CompareForm.isBuiltin (left right : Ty) : Bool :=
  left.nonNullable == right.nonNullable &&
    (left.nonNullable.isPrimitive || left.nonNullable == .str)

/-- The form of a comparison node, if its operand types have one. -/
def CompareForm.choose? (table : Overloads) (op : CmpOp) (left right : Ty)
    (given : Option Method) : Option CompareForm :=
  match given with
  | some m => some (.method m)
  | none =>
    if isBuiltin left right then some .builtin
    else
      match table.resolve? (.cmp op) left right with
      | some m => some (.method m)
      | none => if op.isEquality then some .generic else none

end ExprCompiler
