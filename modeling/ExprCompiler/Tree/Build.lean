/-
Nodes with the result type that follows from their parts. Each takes the identity of the new node
first.
-/
import ExprCompiler.Tree

namespace ExprCompiler

namespace Tree

def constant (id : NodeId) (v : Value) (ty : Ty) : Tree :=
  .node id ty (.constant v)

def int (id : NodeId) (n : Int) : Tree :=
  constant id (.i32 n) (.int .i32)

def long (id : NodeId) (n : Int) : Tree :=
  constant id (.i64 n) (.int .i64)

def bool (id : NodeId) (b : Bool) : Tree :=
  constant id (.bool b) .bool

def string (id : NodeId) (s : String) : Tree :=
  constant id (.str s) .str

def null (id : NodeId) (ty : Ty) : Tree :=
  constant id .null ty

def param (id : NodeId) (p : Param) : Tree :=
  .node id p.ty (.parameter p)

def convert (id : NodeId) (operand : Tree) (target : Ty) (checked : Bool) : Tree :=
  .node id target (.convert operand checked none)

/-- Conversion by a static method. -/
def convertBy (id : NodeId) (operand : Tree) (m : Method) : Tree :=
  .node id m.ret (.convert operand false (some m))

def arrayIndex (id : NodeId) (array index : Tree) : Tree :=
  .node id (array.ty.element?.getD .object) (.arrayIndex array index)

def call (id : NodeId) (receiver : Option Tree) (m : Method) (args : List Tree) : Tree :=
  .node id m.ret (.call receiver m args)

/-- Member access. The type of a field is known only if the class declares it. -/
def member (id : NodeId) (receiver : Option Tree) (m : Member) : Except Defect Tree :=
  m.ty.map fun ty => .node id ty (.member receiver m)

def new (id : NodeId) (ctor : Constructor) (args : List Tree) : Tree :=
  .node id ctor.ty (.new ctor args)

def newArray (id : NodeId) (elem : Ty) (items : List Tree) : Tree :=
  .node id (.array elem) (.newArray elem items)

def newArrayOfLength (id : NodeId) (elem : Ty) (length : Tree) : Tree :=
  .node id (.array elem) (.newArrayOfLength elem length)

def memberInit (id : NodeId) (target : Tree) (bindings : List (Binding Tree)) : Tree :=
  .node id target.ty (.memberInit target bindings)

def lambda (id : NodeId) (params : List Param) (body : Tree) (name : Option String) : Tree :=
  .node id (.func (params.map Param.ty) body.ty) (.lambda params body name)

def invoke (id : NodeId) (target : Tree) (args : List Tree) : Tree :=
  .node id ((target.ty.signature?.map Signature.ret).getD .object) (.invoke target args)

def compare (id : NodeId) (op : CmpOp) (left right : Tree) : Tree :=
  .node id .bool (.compare op left right none)

/-- Comparison by an operator method. -/
def compareBy (id : NodeId) (op : CmpOp) (left right : Tree) (m : Method) : Tree :=
  .node id m.ret (.compare op left right (some m))

/-- Arithmetic has the type of the left operand; addition of a string is concatenation. -/
def arith (id : NodeId) (op : ArithOp) (left right : Tree) (checked : Bool) : Tree :=
  let concat := op == .add && (left.ty == .str || right.ty == .str)
  .node id (if concat then .str else left.ty) (.arith op left right checked none)

/-- Arithmetic by an operator method. -/
def arithBy (id : NodeId) (op : ArithOp) (left right : Tree) (m : Method) : Tree :=
  .node id m.ret (.arith op left right false (some m))

def negate (id : NodeId) (operand : Tree) (checked : Bool) : Tree :=
  .node id operand.ty (.unary .negate operand checked)

def not (id : NodeId) (operand : Tree) : Tree :=
  .node id operand.ty (.unary .not operand false)

def arrayLength (id : NodeId) (array : Tree) : Tree :=
  .node id (.int .i32) (.unary .arrayLength array false)

def logical (id : NodeId) (op : LogicalOp) (left right : Tree) : Tree :=
  .node id .bool (.logical op left right)

/-- The left operand unless it is null. A nullable left operand with a right operand of its
underlying type gives the underlying type. -/
def coalesce (id : NodeId) (left right : Tree) : Tree :=
  let ty := match left.ty with
    | .nullable inner => if inner = right.ty then inner else .nullable inner
    | ty => ty
  .node id ty (.coalesce left right)

def cond (id : NodeId) (test ifTrue ifFalse : Tree) : Tree :=
  .node id ifTrue.ty (.cond test ifTrue ifFalse)

def assign (id : NodeId) (target value : Tree) : Tree :=
  .node id target.ty (.assign target value)

/-- A block has the value of its last expression. -/
def block (id : NodeId) (vars : List Param) (body : List Tree) : Tree :=
  .node id ((body.getLast?.map ty).getD .void) (.block vars body)

def guarded (id : NodeId) (body : Tree) (handlers : List (CatchClause Tree))
    (final : Option Tree) : Tree :=
  .node id body.ty (.guarded body handlers final)

def throw (id : NodeId) (operand : Tree) : Tree :=
  .node id .void (.throw (some operand))

/-- Throws the exception being handled again. -/
def rethrow (id : NodeId) : Tree :=
  .node id .void (.throw none)

def defaultOf (id : NodeId) (ty : Ty) : Tree :=
  .node id ty .default

def index (id : NodeId) (receiver : Tree) (ix : Indexer) (args : List Tree) : Tree :=
  .node id ix.ty (.index receiver ix args)

/-- A new node of the same shape with another result type. -/
def retype (id : NodeId) (t : Tree) (ty : Ty) : Tree :=
  .node id ty t.shape

end Tree

end ExprCompiler
