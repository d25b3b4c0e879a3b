/-
Code for trees. A node's code leaves exactly the node's value on the stack, or nothing if the value
is void or not wanted. One fold gives each node its code for the value, for the address of the
storage that it denotes, and for assignments to it.
-/
import ExprCompiler.Conversion
import ExprCompiler.Emit.Context
import ExprCompiler.Operator.Form

namespace ExprCompiler

/-! ## Nodes -/

/-- The code of a node. -/
structure Emission where
  value : Usage → EmitM Unit
  /-- Leaves the address of the storage that the node denotes. -/
  address : EmitM Unit
  /-- Assigns to the node what the given code leaves. -/
  assign : EmitM Unit → Usage → EmitM Unit

/-- A child of a node with its code. -/
abbrev Emitted := Tree.Child Emission

namespace Emitted

def value (c : Emitted) : EmitM Unit := c.meaning.value .value

def discard (c : Emitted) : EmitM Unit := c.meaning.value .discard

/-- The value where one of type `ty` is expected: a void node gives the zero of that type. -/
def valueAs (c : Emitted) (ty : Ty) (usage : Usage) : EmitM Unit := do
  if usage = .value ∧ c.ty.isVoid ∧ ¬ ty.isVoid then
    c.discard
    EmitM.emit (.default ty)
  else c.meaning.value usage

/-- The receiver of a member access or a call: the address of a struct, else the value. -/
def receiver (c : Emitted) : EmitM Unit :=
  if c.ty.isStruct then c.meaning.address else c.value

end Emitted

namespace Emit

open EmitM

/-- The largest count that an instruction can hold. -/
def maxCount : Nat := Nat.pow 2 16 - 1

def values (cs : List Emitted) : EmitM Unit :=
  cs.forM Emitted.value

def constant (id : NodeId) (v : Value) : EmitM Unit := do
  if v.isImmediate then emit (.const v)
  else
    let i ← found ((← read).capture.constantIndex? id)
    let slot ← check ((← layout).slot .constant i)
    let ty := ((← read).capture.constants[i]?.map CapturedConstant.ty).getD .object
    loadItem slot ty

/-- The instruction for a step of a conversion. -/
def stepInstr : ConvStep → Instr
  | .numeric ty mode => .convert ty mode
  | .unwrap => .unwrap
  | .unbox ty => .unbox ty
  | .cast ty => .castClass ty

def convert (ty : Ty) (operand : Emitted) (checked : Bool) (method : Option Method) :
    EmitM Unit := do
  match method with
  | some m =>
    operand.value
    emit (.call m)
  | none =>
    match planConversion? operand.ty ty checked with
    | none => decline (.conversion operand.ty ty)
    | some steps =>
      operand.value
      steps.forM fun s => emit (stepInstr s)

def call (receiver : Option Emitted) (m : Method) (args : List Emitted) : EmitM Unit := do
  match receiver, m.isStatic with
  | some r, false => r.receiver
  | none, true => pure ()
  | _, _ => decline (.callMismatch m.describe)
  values args
  emit (.call m)

def readMember (receiver : Option Emitted) (m : Member) : EmitM Unit := do
  match m, receiver with
  | .static s, none => emit (.loadStatic s)
  | .field _ i, some r =>
    r.receiver
    emit (.loadField i)
  | .property p, some r =>
    r.receiver
    emit (.getProperty p)
  | .property p, none =>
    emit (.const .null)
    emit (.getProperty p)
  | m, _ => decline (.readMismatch (← check m.describe))

/-- Stores the top value into a member of the receiver below it; static members have none. -/
def storeMember : Member → EmitM Unit
  | .field _ i => emit (.storeField i)
  | .property p =>
    if p.setter.isSome then emit (.setProperty p) else decline (.noSetter p.name)
  | .static s => emit (.storeStatic s)

/-- Stores the bindings' values; `target` is the code that leaves what is initialised. -/
def bindings (target : EmitM Unit) (bs : List (Binding Emitted)) : EmitM Unit :=
  bs.forM fun b => do
    unless b.member.isStatic do target
    b.value.value
    storeMember b.member

def memberInit (target : Emitted) (bs : List (Binding Emitted)) (usage : Usage) : EmitM Unit := do
  target.value
  if target.ty.isStruct then
    let temp ← newLocal target.ty
    emit (.storeLocal temp)
    bindings (emit (.loadLocalAddr temp)) bs
    if usage = .value then emit (.loadLocal temp)
  else
    bindings (emit .dup) bs
    settle usage target.ty

/-- Loads a nested lambda as a function. The closure of a lambda with captures is built here from
the items of this unit, in the order of the lambda's own layout. -/
def lambda (id : NodeId) : EmitM Unit := do
  let i ← found ((← read).capture.nestedIndex? id)
  let slot ← check ((← layout).slot .nested i)
  match (← read).capture.nested[i]? with
  | none => throw (.defect .notAnalysed)
  | some record =>
    loadItem slot record.itemType
    match record.capture, record.artifact with
    | none, _ => return ()
    | some child, .curryable _ childLayout =>
      child.constants.forM fun c => loadConstant c.node c.ty
      child.params.forM fun p => do loadVar (← resolve p) p.ty
      child.nested.forM fun n => loadNested n.node n.itemType
      emit (.newClosure childLayout)
      emit .curry
    | some _, _ => throw (.defect .curryableWithoutLayout)

def invoke (ty : Ty) (target : Emitted) (args : List Emitted) : EmitM Unit := do
  if maxCount < args.length then decline (.tooMany "arguments")
  target.value
  values args
  emit (.invoke args.length (!ty.isVoid))

/-- The instructions of a form of comparison. -/
def compareInstrs (op : CmpOp) : CompareForm → List Instr
  | .method m => [.call m]
  | .builtin => [.compare op]
  | .generic => if op = .eq then [.genericEq] else [.genericEq, .complement]

def compare (op : CmpOp) (left right : Emitted) (method : Option Method) : EmitM Unit := do
  match CompareForm.choose? (← read).operators op left.ty right.ty method with
  | none => decline (.noOperator op.name left.ty right.ty)
  | some form =>
    left.value
    right.value
    (compareInstrs op form).forM emit

/-- The instruction of a form of arithmetic. -/
def arithInstr (op : ArithOp) : ArithForm → Instr
  | .method m => .call m
  | .concat => .concat
  | .builtin mode => .arith op mode

def arith (op : ArithOp) (left right : Emitted) (checked : Bool) (method : Option Method) :
    EmitM Unit := do
  match ArithForm.choose? (← read).operators op left.ty right.ty checked method with
  | none => decline (.noOperator op.name left.ty right.ty)
  | some form =>
    left.value
    right.value
    emit (arithInstr op form)

/-- The instruction of a unary operator, if the operand's type has one. -/
def unaryInstr? (op : UnaryOp) (ty : Ty) (checked : Bool) : Option Instr :=
  let t := ty.nonNullable
  match op with
  | .negate => if t.isNumeric then some (.negate (Overflow.select checked ty)) else none
  | .not => if t = .bool || t.isInteger then some .complement else none
  | .arrayLength => if t.element?.isSome then some .arrayLength else none

def unary (op : UnaryOp) (operand : Emitted) (checked : Bool) : EmitM Unit := do
  match unaryInstr? op operand.ty checked with
  | none => decline (.undefinedFor op.name operand.ty.nonNullable)
  | some instr =>
    operand.value
    emit instr

def logical (op : LogicalOp) (left right : Emitted) : EmitM Unit := do
  if left.ty ≠ .bool ∨ right.ty ≠ .bool then decline (.logicalOver op.name left.ty right.ty)
  let done ← newLabel
  left.value
  emit .dup
  branch (match op with | .andAlso => .ifFalse | .orElse => .ifTrue) done
  emit .pop
  right.value
  mark done

def coalesce (ty : Ty) (left right : Emitted) : EmitM Unit := do
  let isNull ← newLabel
  let done ← newLabel
  left.value
  emit .dup
  branch .ifNull isNull
  if left.ty.isNullable ∧ ¬ ty.isNullable then emit .unwrap
  branch .always done
  mark isNull
  emit .pop
  right.valueAs ty .value
  mark done

def cond (ty : Ty) (test ifTrue ifFalse : Emitted) (usage : Usage) : EmitM Unit := do
  if test.ty ≠ .bool then decline (.testType test.ty)
  let usage := usage.unlessVoid ty
  let otherwise ← newLabel
  let done ← newLabel
  test.value
  branch .ifFalse otherwise
  ifTrue.valueAs ty usage
  branch .always done
  mark otherwise
  ifFalse.valueAs ty usage
  mark done

/-- Code in the scope of variables. -/
def within (scope : List (Param × Nat)) (x : EmitM Unit) : EmitM Unit :=
  withReader (fun ctx => { ctx with scopes := scope :: ctx.scopes }) x

/-- Declares a variable and gives it the zero of its type. -/
def fresh (p : Param) : EmitM (Param × Nat) := do
  let i ← newLocal p.ty
  emit (.default p.ty)
  emit (.storeLocal i)
  return (p, i)

/-- Declares the variables of a scope. -/
def declare (vars : List Param) : EmitM (List (Param × Nat)) :=
  vars.mapM fresh

/-- The value is that of the last statement; without statements, the zero of the type. -/
def statements (ty : Ty) (usage : Usage) : List Emitted → EmitM Unit
  | [] => if usage = .value then emit (.default ty) else return ()
  | [last] => last.valueAs ty usage
  | s :: rest => do
    s.discard
    statements ty usage rest

def block (ty : Ty) (vars : List Param) (body : List Emitted) (usage : Usage) : EmitM Unit := do
  let scope ← declare vars
  within scope (statements ty (usage.unlessVoid ty) body)

/-- Keeps a result in the local that all paths through a protected region share. -/
def storeResult (result : Option Nat) : EmitM Unit :=
  result.forM fun i => emit (.storeLocal i)

/-- A protected region: where it starts and ends and what holds where it is entered. -/
structure Region where
  ty : Ty
  usage : Usage
  result : Option Nat
  after : Nat
  start : Nat
  stop : Nat
  stackDepth : Nat
  finallyDepth : Nat

/-- The body of a catch clause. The exception is kept in a local for throwing it again. -/
def clause (r : Region) (c : CatchClause Emitted) : EmitM Handler := do
  let entry ← newLabel
  build fun b => b.markEntry entry (r.stackDepth + 1)
  let hidden ← newLocal .object
  let scope ← match c.var with
    | some p => do
      let i ← newLocal p.ty
      emit .dup
      emit (.storeLocal hidden)
      emit (.storeLocal i)
      pure [(p, i)]
    | none => do
      emit (.storeLocal hidden)
      pure []
  withReader
    (fun ctx => { ctx with scopes := scope :: ctx.scopes, catchLocals := hidden :: ctx.catchLocals })
    (c.body.valueAs r.ty r.usage)
  storeResult r.result
  branch .always r.after
  let target ← check ((← get).labelPc entry)
  return ⟨r.start, r.stop, .catches c.test, target, r.stackDepth, r.finallyDepth⟩

/-- Closes a protected region, with its finally body if it has one. -/
def finalize (r : Region) : Option Emitted → EmitM Unit
  | none => mark r.after
  | some final => do
    build fun b => b.markEntry r.after r.stackDepth
    let stop := (← get).pc
    emit .enterFinally
    let target := (← get).pc
    final.discard
    emit .endFinally
    modify fun b =>
      b.addHandler ⟨r.start, stop, .finally, target, r.stackDepth, r.finallyDepth⟩

/-- The local in which the body and the clauses of a protected region leave their value. -/
def resultLocal (usage : Usage) (ty : Ty) : EmitM (Option Nat) := do
  if usage = .value then return some (← newLocal ty) else return none

/-- A protected region that is entered with the given depth. Its body and its clauses leave their value
in one local, which is read back after the finally body. -/
def region (ty : Ty) (body : Emitted) (clauses : List (CatchClause Emitted)) (final : Option Emitted)
    (usage : Usage) (stackDepth : Nat) : EmitM Unit := do
  let result ← resultLocal usage ty
  let finallyDepth := (← get).finallyNesting
  let after ← newLabel
  let start := (← get).pc
  body.valueAs ty usage
  storeResult result
  branch .always after
  let stop := (← get).pc
  let r : Region := ⟨ty, usage, result, after, start, stop, stackDepth, finallyDepth⟩
  let handlers ← clauses.mapM (clause r)
  modify fun b => handlers.foldl Builder.addHandler b
  finalize r final
  restore result

/-- A protected region. Nothing is emitted where control does not come. -/
def guarded (ty : Ty) (body : Emitted) (clauses : List (CatchClause Emitted))
    (final : Option Emitted) (usage : Usage) : EmitM Unit := do
  if clauses.any fun c => c.filter.isSome then decline .catchFilter
  match (← get).depth with
  | none => return ()
  | some stackDepth => region ty body clauses final (usage.unlessVoid ty) stackDepth

def throwing (operand : Option Emitted) : EmitM Unit := do
  match operand with
  | some e => e.value
  | none =>
    match (← read).catchLocals with
    | hidden :: _ => emit (.loadLocal hidden)
    | [] => decline .rethrowOutside
  emit .throw

/-- The code of a node that always leaves its value. -/
def produce (id : NodeId) (ty : Ty) : Shape Emitted → EmitM Unit
  | .constant v => constant id v
  | .parameter p => do loadVar (← resolve p) p.ty
  | .convert operand checked method => convert ty operand checked method
  | .arrayIndex array index => do
    array.value
    index.value
    emit .loadElem
  | .call receiver m args => call receiver m args
  | .member receiver m => readMember receiver m
  | .new ctor args => do
    values args
    emit (.new ctor)
  | .newArray elem items => do
    if maxCount < items.length then decline (.tooMany "array items")
    values items
    emit (.newArrayOf elem items.length)
  | .newArrayOfLength elem length => do
    length.value
    emit (.newArray elem)
  | .lambda _ _ _ => lambda id
  | .invoke target args => invoke ty target args
  | .compare op left right method => compare op left right method
  | .arith op left right checked method => arith op left right checked method
  | .unary op operand checked => unary op operand checked
  | .logical op left right => logical op left right
  | .coalesce left right => coalesce ty left right
  | .default => emit (.default ty)
  | .index receiver ix args => do
    receiver.receiver
    values args
    emit (.getIndex ix)
  | .memberInit target bs => memberInit target bs .value
  | .cond test ifTrue ifFalse => cond ty test ifTrue ifFalse .value
  | .assign target v => target.meaning.assign v.value .value
  | .block vars body => block ty vars body .value
  | .guarded body clauses final => guarded ty body clauses final .value
  | .throw operand => throwing operand

/-- The code of a node for a usage that the node's type allows. -/
def used (id : NodeId) (ty : Ty) (shape : Shape Emitted) (usage : Usage) : EmitM Unit :=
  match shape with
  | .constant _ | .lambda _ _ _ | .default =>
    if usage = .value then produce id ty shape else return ()
  | .parameter p => do
    let var ← resolve p
    if usage = .value then loadVar var p.ty
  | .memberInit target bs => memberInit target bs usage
  | .cond test ifTrue ifFalse => cond ty test ifTrue ifFalse usage
  | .assign target v => target.meaning.assign v.value usage
  | .block vars body => block ty vars body usage
  | .guarded body clauses final => guarded ty body clauses final usage
  | .throw operand => throwing operand
  | shape => do
    produce id ty shape
    settle usage ty

/-- The code of a node for a usage of its value. -/
def value (id : NodeId) (ty : Ty) (shape : Shape Emitted) (usage : Usage) : EmitM Unit :=
  if usage = .value ∧ ty.isVoid then decline .voidValue else used id ty shape usage

/-- The address of the storage that a node denotes; other nodes are copied into a local. -/
def address (id : NodeId) (ty : Ty) : Shape Emitted → EmitM Unit
  | .parameter p => do loadVarAddr (← resolve p)
  | .arrayIndex array index => do
    array.value
    index.value
    emit .loadElemAddr
  | .member (some r) (.field _ i) => do
    r.receiver
    emit (.loadFieldAddr i)
  | shape => do
    value id ty shape .value
    let temp ← newLocal ty
    emit (.storeLocal temp)
    emit (.loadLocalAddr temp)

/-- Stores through an instruction that takes the value on top, and leaves the value if wanted. -/
def storeBy (store : EmitM Unit) (ty : Ty) (usage : Usage) : EmitM Unit := do
  let temp ← keep usage ty
  store
  restore temp

/-- Assigns to a node. -/
def assign (ty : Ty) (shape : Shape Emitted) (source : EmitM Unit) (usage : Usage) :
    EmitM Unit := do
  match shape with
  | .parameter p =>
    let var ← resolve p
    source
    if usage = .value then emit .dup
    storeVar var
  | .member none (.static s) =>
    source
    if usage = .value then emit .dup
    emit (.storeStatic s)
  | .member (some r) m =>
    if m.isStatic then decline (.notAssignable shape.kind)
    else if !m.isWritable then decline (.readOnly (← check m.describe))
    else
      r.receiver
      source
      storeBy (storeMember m) ty usage
  | .arrayIndex array index =>
    array.value
    index.value
    if ty.isStruct then
      emit .loadElemAddr
      source
      storeBy (emit .storeThrough) ty usage
    else
      source
      storeBy (emit .storeElem) ty usage
  | .index receiver ix args =>
    if ix.setter.isNone then decline (.readOnly ix.describe)
    receiver.receiver
    values args
    source
    storeBy (emit (.setIndex ix)) ty usage
  | shape => decline (.notAssignable shape.kind)

end Emit

/-- The code of a tree. -/
def Tree.emission : Tree → Emission :=
  Tree.fold fun id ty shape =>
    { value := Emit.value id ty shape
      address := Emit.address id ty shape
      assign := Emit.assign ty shape }

namespace Emit

open EmitM

/-- The code of what a unit returns: the value of its body, or null if it returns nothing. -/
def result (t : Tree) (ret : Ty) : EmitM Unit :=
  if ret.isVoid then do
    Emitted.discard (.of Tree.emission t)
    emit (.const .null)
  else Emitted.valueAs (.of Tree.emission t) ret .value

def body (t : Tree) (ret : Ty) : EmitM Unit := do
  result t ret
  emit .ret

/-- The code of a unit before its first instruction. -/
def start (name : String) (params : List Param) (ret : Ty) (layout : Option Layout) : Builder where
  name := name
  params := params.map Param.ty
  ret := ret
  layout := layout

/-- The unit of a tree over parameters. The layout is that of the captures, present exactly if
there are any. -/
def unit (operators : Overloads) (name : String) (t : Tree) (params : List Param) (ret : Ty)
    (capture : Capture) (layout : Option Layout) : Except Refusal CodeUnit :=
  match body t ret { operators, params, capture, layout } (start name params ret layout) with
  | .error r => .error r
  | .ok (_, b) =>
    match b.finish with
    | .ok u => .ok u
    | .error d => .error (.defect d)

end Emit

end ExprCompiler
