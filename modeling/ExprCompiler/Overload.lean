/-
Methods, and the operators that classes overload with them.
-/
import ExprCompiler.Operator
import ExprCompiler.Value

namespace ExprCompiler

/-- A method; static when it has no receiver type. -/
structure Method where
  name : String
  receiver : Option Ty
  params : List Ty
  ret : Ty
  impl : HostRef
deriving DecidableEq

def Method.isStatic (m : Method) : Bool :=
  m.receiver.isNone

/-- The listing form of a method. -/
def Method.describe (m : Method) : String :=
  match m.receiver with
  | some ty => ty.text ++ "::" ++ m.name
  | none => "static " ++ m.name

/-- An operator that a class overloads with a method. -/
structure Overload where
  cls : Class
  op : Operator
  method : Method
deriving DecidableEq

/-- The overloads in the order in which they were registered. -/
abbrev Overloads := List Overload

namespace Overloads

/-- The first overload registered with a class whose parameters are exactly the operand types. -/
def ofClass? (table : Overloads) (cls : Class) (op : Operator) (left right : Ty) : Option Method :=
  let hit := List.find? (fun o => o.cls == cls && o.op == op && o.method.params == [left, right]) table
  hit.map Overload.method

/-- The overload for the operand types: the left operand's class is asked first. -/
def resolve? (table : Overloads) (op : Operator) (left right : Ty) : Option Method :=
  ([left, right].filterMap fun ty => ty.nonNullable.class?).findSome? fun cls =>
    table.ofClass? cls op left right

end Overloads

end ExprCompiler
