/-
Run-time values. A reference carries what never changes about its referent (the class of an
object, the element type of an array, the name of a unit); contents that change live in the heap.
-/
import ExprCompiler.Double
import ExprCompiler.Ty

namespace ExprCompiler

/-- A shared instance of a reference-type class. -/
structure ObjectRef where
  id : Nat
  cls : Class
deriving DecidableEq

/-- A shared array. -/
structure ArrayRef where
  id : Nat
  elem : Ty
deriving DecidableEq

/-- A linked unit of code. -/
structure UnitRef where
  id : Nat
  name : String
deriving DecidableEq, Inhabited

/-- A closure: the captured items a unit of code runs with. -/
structure ClosureRef where
  id : Nat
deriving DecidableEq, Inhabited

/-- An instance of a lambda run by the evaluator. -/
structure LambdaRef where
  id : Nat
deriving DecidableEq, Inhabited

/-- A function provided by the host. -/
structure HostRef where
  id : Nat
deriving DecidableEq, Inhabited

/-- A static member cell. -/
structure StaticRef where
  id : Nat
  name : String
  ty : Ty
deriving DecidableEq

/-- A storage location: a variable, or a part of an array, an object or a struct. -/
inductive Place (Var : Type)
  | root (var : Var)
  | element (array : ArrayRef) (index : Nat)
  | objectField (object : ObjectRef) (index : Nat)
  /-- A field of the struct stored at the inner place. -/
  | field (inner : Place Var) (index : Nat)
deriving DecidableEq

/-- A variable as seen from a machine frame. -/
inductive FrameVar
  | arg (index : Nat)
  | localVar (index : Nat)
  /-- An item of the frame's own closure. -/
  | closure (slot : Nat)
deriving DecidableEq

/-- Anything that can be called with arguments. -/
inductive Callable
  /-- A unit, with its closure if it has captures. -/
  | code (unit : UnitRef) (closure : Option ClosureRef)
  | interpreted (lambda : LambdaRef)
  | host (fn : HostRef)
deriving DecidableEq

inductive Value
  | null
  | bool (b : Bool)
  | int (w : Word)
  | f64 (x : Float)
  | str (s : String)
  | token (ty : Ty)
  | object (ref : ObjectRef)
  | struct (cls : Class) (fields : List Value)
  | array (ref : ArrayRef)
  | func (f : Callable)
  /-- A unit that still expects its closure. -/
  | code (unit : UnitRef)
  | closure (ref : ClosureRef)
  | addr (a : Place FrameVar)

instance : Inhabited Value := ⟨.null⟩

namespace Value

def i32 (n : Int) : Value := .int (.ofInt .i32 n)

def i64 (n : Int) : Value := .int (.ofInt .i64 n)

def isNull : Value → Bool
  | .null => true
  | _ => false

/-- The value is the boolean true; everything else counts as false. -/
def isTrue : Value → Bool
  | .bool true => true
  | _ => false

/-- Values that stand in the instruction stream themselves. -/
def isImmediate : Value → Bool
  | .null | .bool _ | .int _ | .f64 _ | .str _ | .token _ => true
  | _ => false

/-- Run-time type test of casts and catch clauses. -/
def hasType (v : Value) : Ty → Bool
  | .nullable inner => v.isNull || v.hasType inner
  | ty =>
    match v, ty with
    | .null, ty => ty.admitsNull
    | _, .object => true
    | .bool _, .bool => true
    | .int w, .int k => w.kind == k
    | .f64 _, .f64 => true
    | .str _, .str => true
    | .token _, .token => true
    | .func _, .func _ _ => true
    | .code _, .func _ _ => true
    | .object o, .cls c => o.cls.derivesFrom c
    | .struct c _, .cls d => c == d
    | .array a, .array elem => a.elem == elem
    | _, _ => false

end Value

/-- Two callables are the same when they run the same unit, lambda instance or host function. -/
def Callable.same : Callable → Callable → Bool
  | .code a _, .code b _ => a == b
  | .interpreted a, .interpreted b => a == b
  | .host a, .host b => a == b
  | _, _ => false

namespace Value

mutual

/-- Generic equality: primitives and strings by value, structs field by field, everything else by
identity. -/
def same (a b : Value) : Bool :=
  match a, b with
  | .null, .null => true
  | .bool a, .bool b => a == b
  | .int a, .int b => a == b
  | .f64 a, .f64 b => a == b
  | .str a, .str b => a == b
  | .token a, .token b => a == b
  | .object a, .object b => a == b
  | .array a, .array b => a == b
  | .struct c fs, .struct d gs => c == d && sameList fs gs
  | .func f, .func g => f.same g
  | .code a, .code b => a == b
  | _, _ => false
termination_by structural a

def sameList (as bs : List Value) : Bool :=
  match as, bs with
  | [], [] => true
  | a :: as, b :: bs => a.same b && sameList as bs
  | _, _ => false
termination_by structural as

end

end Value

/-! ## Zero values -/

mutual

/-- The value a location of the type starts with. -/
def Ty.zero : Ty → Value
  | .bool => .bool false
  | .int k => .int (.ofInt k 0)
  | .f64 => .f64 0.0
  | .cls c => c.zero
  | _ => .null

/-- A struct of zeros for a value-type class, null for the others. -/
def Class.zero : Class → Value
  | .mk serial name valueType base fields =>
    if valueType then .struct (.mk serial name valueType base fields) (Field.zeros fields)
    else .null

def Field.zero : Field → Value
  | .mk _ ty => ty.zero

def Field.zeros : List Field → List Value
  | [] => []
  | f :: fs => f.zero :: Field.zeros fs

end

end ExprCompiler
