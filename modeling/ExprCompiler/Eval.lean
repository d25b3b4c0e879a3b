/-
The evaluator: the meaning of trees. A node has a value; where it denotes storage, it has a place
that calls change in place; and it may be assigned to. All three are given at once by one fold.

A lambda captures by value: creating one copies every visible variable, and all calls of that
instance share the copies.
-/
import ExprCompiler.Conversion
import ExprCompiler.Operator.Form
import ExprCompiler.Place

namespace ExprCompiler

/-- A variable as seen from an activation. -/
inductive EvalVar
  /-- A variable of the activation itself. -/
  | own (index : Nat)
  /-- A variable captured by the running lambda. -/
  | captured (index : Nat)
  /-- A value without a home; what is written to it is lost. -/
  | temp (v : Value)

/-- The variables of an activation, innermost last. -/
abbrev Activation := Array (Param × Value)

/-- What an activation does not change. -/
structure EvalContext where
  lib : Library
  inv : Invoker
  /-- The running lambda. -/
  self : Option LambdaRef
  /-- The exceptions handled by the enclosing catch bodies, innermost first. -/
  handling : List Value

abbrev EvalM := Act EvalContext Activation

namespace EvalM

variable {α : Type}

/-! ## Variables -/

/-- The position of the innermost variable bound to a token. -/
def position? (vars : Activation) (p : Param) : Option Nat :=
  (List.range vars.size).reverse.find? fun i => vars[i]?.map Prod.fst == some p

/-- The variables that the running lambda captured. -/
def capturedBy (w : World) (self : Option LambdaRef) : Activation :=
  ((self.bind w.lambda?).map Lambda.captured).getD #[]

/-- The innermost variable bound to a token. -/
def lookup (p : Param) : EvalM EvalVar := do
  match position? (← Act.own) p with
  | some i => return .own i
  | none =>
    match position? (capturedBy (← Act.world) (← read).self) p with
    | some i => return .captured i
    | none => Act.misuse (.unbound p.name)

/-- The value of a variable in an array of variables. -/
def valueAt (vars : Activation) (i : Nat) : Value :=
  (vars[i]?.map Prod.snd).getD .null

def setValue (vars : Activation) (i : Nat) (v : Value) : Activation :=
  vars.modify i fun (p, _) => (p, v)

/-- Access to the variables of an activation. -/
def access : Variables EvalVar EvalContext Activation where
  read
    | .own i => return valueAt (← Act.own) i
    | .captured i => return valueAt (capturedBy (← Act.world) (← read).self) i
    | .temp v => return v
  write
    | .own i, v => Act.modifyOwn fun vars => setValue vars i v
    | .captured i, v => do
      if let some l := (← read).self then
        Act.change fun w =>
          ((), { w with lambdas := w.lambdas.modify l.id fun lambda =>
            { lambda with captured := setValue lambda.captured i v } })
    | .temp _, _ => return ()

/-- Runs a computation with variables in an inner scope. Gives how it ended, and the variables as
it left them. -/
def inScope (vars : List (Param × Value)) (x : EvalM α) :
    EvalM (Except Stop α × List (Param × Value)) := do
  let outer := (← Act.own).size
  Act.modifyOwn (· ++ vars.toArray)
  let result ← Act.observe x
  let inner := (← Act.own).toList.drop outer
  Act.modifyOwn (·.take outer)
  return (result, inner)

/-- Runs a computation with variables in an inner scope. -/
def within (vars : List (Param × Value)) (x : EvalM α) : EvalM α := do
  MonadExcept.ofExcept (← inScope vars x).1

/-- Runs a computation in a block, whose variables start as zeros. -/
def declaring (vars : List Param) (x : EvalM α) : EvalM α :=
  within (vars.map fun p => (p, p.ty.zero)) x

/-! ## Calls and exceptions -/

/-- Runs a computation as a catch body for an exception. -/
def handling (exn : Value) (x : EvalM α) : EvalM α :=
  withReader (fun ctx => { ctx with handling := exn :: ctx.handling }) x

/-- Runs a computation as the body of a clause that has accepted an exception. -/
def catching (exn : Value) (vars : List (Param × Value)) (x : EvalM α) : EvalM α :=
  within vars (handling exn x)

/-- The overloads that classes have by now. -/
def overloads : EvalM Overloads :=
  return (← read).lib.operators ++ (← Act.heap).registered

/-- Calls a host function on a receiver, which comes back as the function left it. -/
def hostCall (fn : HostRef) (receiver : Value) (args : List Value) :
    EvalM (Value × Except Stop Value) := do
  let ctx ← read
  Act.hostCall ctx.lib ctx.inv fn receiver args

/-- Calls a host function whose changes to the receiver are of no account. -/
def hostValue (fn : HostRef) (receiver : Value) (args : List Value) : EvalM Value := do
  let ctx ← read
  Act.hostValue ctx.lib ctx.inv fn receiver args

/-- Calls a method as a static one. -/
def callStatic (m : Method) (args : List Value) : EvalM Value :=
  hostValue m.impl .null args

/-- Calls a host function on a receiver that must not be null. -/
def hostOn (fn : HostRef) (receiver : Value) (args : List Value) :
    EvalM (Value × Except Stop Value) :=
  if receiver.isNull then Act.raise .nullReference else hostCall fn receiver args

end EvalM

/-! ## Nodes -/

/-- The meaning of a node. -/
structure Meaning where
  value : EvalM Value
  /-- The storage that the node denotes; a copy of its value if it denotes none. -/
  place : EvalM (Place EvalVar)
  /-- Assigns the value of a computation to the node. -/
  assign : EvalM Value → EvalM Value

/-- A child of a node with its meaning. -/
abbrev Evaluated := Tree.Child Meaning

namespace Evaluated

def value (c : Evaluated) : EvalM Value := c.meaning.value

/-- The value where one of type `ty` is expected: a void node gives the zero of that type. -/
def valueAs (c : Evaluated) (ty : Ty) : EvalM Value := do
  let v ← c.value
  return if c.ty.isVoid then ty.zero else v

/-- The receiver of a member access or a call: the stored struct, or a copy of a reference. -/
def receiver (c : Evaluated) : EvalM (Place EvalVar) := do
  if c.ty.isStruct then c.meaning.place else return .root (.temp (← c.value))

end Evaluated

namespace Eval

open EvalM

def values (cs : List Evaluated) : EvalM (List Value) :=
  cs.mapM Evaluated.value

/-- The value unless the type is void. -/
def unlessVoid (ty : Ty) (v : Value) : Value :=
  if ty.isVoid then .null else v

def convert (ty : Ty) (operand : Evaluated) (checked : Bool) (method : Option Method) :
    EvalM Value := do
  let v ← operand.value
  match method with
  | some m => callStatic m [v]
  | none =>
    match planConversion? operand.ty ty checked with
    | some steps => Act.settle (applyConversion v steps)
    | none => Act.raise (.invalidCast v ty)

def callMethod (receiver : Option Evaluated) (m : Method) (args : List Evaluated) : EvalM Value := do
  match receiver, m.isStatic with
  | none, true => return unlessVoid m.ret (← callStatic m (← values args))
  | some r, false =>
    let place ← r.receiver
    let args ← values args
    return unlessVoid m.ret (← place.update access fun v => hostOn m.impl v args)
  | _, _ => Act.misuse (.callMismatch m.describe)

def readMember (receiver : Option Evaluated) (m : Member) : EvalM Value := do
  match m, receiver with
  | .static s, none => return (← Act.heap).loadStatic s
  | .field _ i, some r =>
    let v ← r.value
    Act.attempt ((← Act.heap).loadField v i)
  | .property p, some r => hostValue p.getter (← r.value) []
  | .property p, none => hostValue p.getter .null []
  | m, _ => Act.misuse (.readMismatch (← Act.check m.describe))

/-- Stores into a member of a target, which comes back as the store left it. -/
def storeMember (target : Value) (m : Member) (v : Value) :
    EvalM (Value × Except Stop Unit) := do
  match m with
  | .field _ i => Act.storeField target i v
  | .property p =>
    match p.setter with
    | some set =>
      let (target, result) ← hostCall set target [v]
      return (target, result.map fun _ => ())
    | none => Act.misuse (.noSetter p.name)
  | .static s =>
    Act.allocate fun h => ((), h.storeStatic s v)
    return (target, .ok ())

/-- Stores the bindings' values into an object or struct. -/
def initialise (target : Value) : List (Binding Evaluated) → EvalM Value
  | [] => return target
  | b :: rest => do
    let v ← b.value.value
    let (target, result) ← storeMember target b.member v
    MonadExcept.ofExcept result
    initialise target rest

/-- An instance of a lambda with copies of all visible variables. -/
def instantiate (params : List Param) (body : Tree) (name : Option String) : EvalM Value := do
  let captured := capturedBy (← Act.world) (← read).self
  let own ← Act.own
  let ref ← Act.change fun w => w.newLambda ⟨name, params, body, captured ++ own⟩
  return .func (.interpreted ref)

/-- A comparison of which the form is known. -/
def compareAs (op : CmpOp) (left right : Evaluated) : Option CompareForm → EvalM Value
  | none => Act.misuse (.noOperator op.name left.ty right.ty)
  | some form => do
    let l ← left.value
    let r ← right.value
    match form with
    | .method m => callStatic m [l, r]
    | .builtin => return .bool (l.compareBy op r)
    | .generic => return .bool (l.same r == (op == .eq))

def compare (op : CmpOp) (left right : Evaluated) (method : Option Method) : EvalM Value := do
  compareAs op left right (CompareForm.choose? (← overloads) op left.ty right.ty method)

/-- Arithmetic of which the form is known, on values of two types. -/
def arithAs (op : ArithOp) (left right : Ty) (l r : Value) : Option ArithForm → EvalM Value
  | some (.method m) => callStatic m [l, r]
  | some .concat => return Value.concat (← Act.heap) l r
  | some (.builtin mode) => Act.settle (l.arith op r mode)
  | none => Act.misuse (.noOperator op.name left right)

/-- An arithmetic node; overloads are looked for once its operands have values. -/
def arith (op : ArithOp) (left right : Evaluated) (checked : Bool) (method : Option Method) :
    EvalM Value := do
  let l ← left.value
  let r ← right.value
  arithAs op left.ty right.ty l r
    (ArithForm.choose? (← overloads) op left.ty right.ty checked method)

def unary (op : UnaryOp) (operand : Evaluated) (checked : Bool) : EvalM Value := do
  let v ← operand.value
  match op with
  | .negate => Act.settle (v.negate (Overflow.select checked operand.ty))
  | .not => Act.settle v.complement
  | .arrayLength => Act.settle ((← Act.heap).arrayLength v)

def logical (op : LogicalOp) (left right : Evaluated) : EvalM Value := do
  let l ← left.value
  let decided := match op with
    | .andAlso => !l.isTrue
    | .orElse => l.isTrue
  if decided then return l else right.value

def coalesce (ty : Ty) (left right : Evaluated) : EvalM Value := do
  let l ← left.value
  if l.isNull then right.valueAs ty
  else if left.ty.isNullable && !ty.isNullable then Act.settle l.unwrap
  else return l

/-- The value of the last statement; without statements, the zero of the type. -/
def statements (ty : Ty) : List Evaluated → EvalM Value
  | [] => return ty.zero
  | [last] => return unlessVoid ty (← last.valueAs ty)
  | s :: rest => do
    let _ ← s.value
    statements ty rest

/-- The variables with which the body of a clause runs, if the clause accepts an exception. A filter
that throws does not accept, and what a filter assigns to the clause's variable stays assigned. -/
def accepted? (exn : Value) (c : CatchClause Evaluated) :
    EvalM (Option (List (Param × Value))) := do
  let vars := c.var.toList.map (·, exn)
  if !exn.hasType c.test then return none
  match c.filter with
  | none => return some vars
  | some filter =>
    match ← inScope vars filter.value with
    | (.ok v, vars) => return if v.isTrue then some vars else none
    | (.error (.thrown _), _) => return none
    | (.error stop, _) => throw stop

/-- Runs the first clause that accepts an exception, or passes it on. -/
def handle (ty : Ty) (exn : Value) : List (CatchClause Evaluated) → EvalM Value
  | [] => Act.throwing exn
  | c :: rest => do
    match ← accepted? exn c with
    | some vars => catching exn vars (c.body.valueAs ty)
    | none => handle ty exn rest

def guarded (ty : Ty) (body : Evaluated) (handlers : List (CatchClause Evaluated))
    (final : Option Evaluated) : EvalM Value := do
  let outcome ← match ← Act.caught (body.valueAs ty) with
    | .ok v => pure (.ok v)
    | .error exn => Act.caught (handle ty exn handlers)
  if let some f := final then
    let _ ← f.value
  match outcome with
  | .ok v => return unlessVoid ty v
  | .error exn => Act.throwing exn

def throwing (operand : Option Evaluated) : EvalM Value := do
  match operand with
  | some e =>
    let v ← e.value
    Act.throwing (← Act.allocate v.thrown)
  | none =>
    match (← read).handling with
    | exn :: _ => Act.throwing exn
    | [] => Act.misuse .rethrowOutside

/-- The value of a node. -/
def value (ty : Ty) : Shape Evaluated → EvalM Value
  | .constant v => return v
  | .parameter p => do access.read (← lookup p)
  | .convert operand checked method => convert ty operand checked method
  | .arrayIndex array index => do
    let a ← array.value
    let i ← index.value
    Act.settle ((← Act.heap).arrayGet a i)
  | .call receiver m args => callMethod receiver m args
  | .member receiver m => readMember receiver m
  | .new ctor args => do hostValue ctor.impl .null (← values args)
  | .newArray elem items => do
    let items ← values items
    Act.allocate fun h => h.newArray elem items.toArray
  | .newArrayOfLength elem length => do
    let n ← length.value
    let (v, h) ← Act.attempt ((← Act.heap).newArrayOfLength elem n)
    Act.setHeap h
    return v
  | .memberInit target bindings => do initialise (← target.value) bindings
  | .lambda params body name => instantiate params body.node name
  | .invoke target args => do
    let f ← target.value
    let args ← values args
    return unlessVoid ty (← Act.invoke (← read).inv f args)
  | .compare op left right method => compare op left right method
  | .arith op left right checked method => arith op left right checked method
  | .unary op operand checked => unary op operand checked
  | .logical op left right => logical op left right
  | .coalesce left right => coalesce ty left right
  | .cond test ifTrue ifFalse => do
    let t ← test.value
    let branch := if t.isTrue then ifTrue else ifFalse
    return unlessVoid ty (← branch.valueAs ty)
  | .assign target v => target.meaning.assign v.value
  | .block vars body => declaring vars (statements ty body)
  | .guarded body handlers final => guarded ty body handlers final
  | .throw operand => throwing operand
  | .default => return ty.zero
  | .index receiver ix args => do
    let r ← receiver.value
    let args ← values args
    if r.isNull then Act.raise .nullReference
    else hostValue ix.getter r args

/-- The place of a field of a receiver that is a reference. -/
def fieldPlace (receiver : Value) (index : Nat) : EvalM (Place EvalVar) :=
  match receiver with
  | .object o => return .objectField o index
  | .null => Act.raise .nullReference
  | v => Act.misuse (.unaddressable v index)

/-- The storage that a node denotes. -/
def place (ty : Ty) (shape : Shape Evaluated) : EvalM (Place EvalVar) :=
  match shape with
  | .parameter p => return .root (← lookup p)
  | .arrayIndex array index => do
    let a ← array.value
    let i ← index.value
    let (a, i) ← Act.settle ((← Act.heap).elementAt a i)
    return .element a i
  | .member (some r) (.field _ i) => do
    if r.ty.isStruct then return .field (← r.meaning.place) i
    else fieldPlace (← r.value) i
  | shape => return .root (.temp (← value ty shape))

/-- Assigns to a node; the assigned value is the value of the assignment. -/
def assign (ty : Ty) (shape : Shape Evaluated) (source : EvalM Value) : EvalM Value := do
  match shape with
  | .parameter p =>
    let var ← lookup p
    let v ← source
    access.write var v
    return v
  | .member none (.static s) =>
    let v ← source
    Act.allocate fun h => ((), h.storeStatic s v)
    return v
  | .member (some r) m =>
    if m.isStatic then Act.misuse (.notAssignable shape.kind)
    else if !m.isWritable then Act.misuse (.readOnly (← Act.check m.describe))
    else
      let place ← r.receiver
      let v ← source
      place.update access fun target => storeMember target m v
      return v
  | .arrayIndex array index =>
    if ty.isStruct then
      let place ← place ty shape
      let v ← source
      place.update access fun _ => return (v, .ok ())
      return v
    else
      let a ← array.value
      let i ← index.value
      let v ← source
      Act.setHeap (← Act.settle ((← Act.heap).arraySet a i v))
      return v
  | .index receiver ix args =>
    match ix.setter with
    | none => Act.misuse (.readOnly ix.describe)
    | some set =>
      let place ← receiver.receiver
      let args ← values args
      let v ← source
      let _ ← place.update access fun r => hostOn set r (args ++ [v])
      return v
  | shape => Act.misuse (.notAssignable shape.kind)

end Eval

/-- The meaning of a tree. -/
def Tree.meaning : Tree → Meaning :=
  Tree.fold fun _ ty shape =>
    { value := Eval.value ty shape
      place := Eval.place ty shape
      assign := Eval.assign ty shape }

/-! ## Activations -/

namespace Eval

/-- Runs a computation with parameters bound to arguments, as the lambda `self`. -/
def binding {α : Type} (lib : Library) (inv : Invoker) (self : Option LambdaRef) (label : String)
    (params : List Param) (args : List Value) (x : EvalM α) (w : World) : Except Stop α × World :=
  let start : EvalM α :=
    if params.length = args.length then x
    else Act.misuse (.argumentCount label params.length args.length)
  let (result, _, w) := start ⟨lib, inv, self, []⟩ ((params.zip args).toArray, w)
  (result, w)

/-- Evaluates a body with its parameters bound to arguments, as the lambda `self`. -/
def activate (lib : Library) (inv : Invoker) (self : Option LambdaRef) (label : String)
    (params : List Param) (body : Tree) (args : List Value) : World → Except Stop Value × World :=
  binding lib inv self label params args (Evaluated.valueAs (.of Tree.meaning body) body.ty)

/-- Evaluates a tree over parameters. -/
def evaluate (lib : Library) (inv : Invoker) (body : Tree) (params : List Param)
    (args : List Value) : World → Except Stop Value × World :=
  activate lib inv none "expression" params body args

/-- Calls an instance of a lambda. -/
def call (lib : Library) (inv : Invoker) (ref : LambdaRef) (args : List Value) (w : World) :
    Except Stop Value × World :=
  match w.lambda? ref with
  | some l => activate lib inv (some ref) l.label l.params l.body args w
  | none => (.error (.defect (.dangling ref.id)), w)

/-- An instance of a lambda node that captures nothing. -/
def interpret? (t : Tree) (w : World) : Option (LambdaRef × World) :=
  match t.shape with
  | .lambda params body name => some (w.newLambda ⟨name, params, body, #[]⟩)
  | _ => none

end Eval

end ExprCompiler
