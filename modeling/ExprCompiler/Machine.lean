/-
The stack machine. A frame holds the arguments (the closure first, if the unit has one), the
locals, the evaluation stack and the finally bodies in progress. An exception goes to the first
entry of the table of protected regions that covers the instruction and accepts it, or else leaves
the frame.
-/
import ExprCompiler.Code.Unit
import ExprCompiler.Place

namespace ExprCompiler

/-- What a frame does not change. -/
structure FrameContext where
  lib : Library
  inv : Invoker
  closure : Option ClosureRef

structure Frame where
  args : Array Value
  locals : Array Value
  /-- The evaluation stack, the top first. -/
  stack : List Value
  /-- One entry for each finally body in progress, innermost first, with the exception to be thrown
  when it ends. -/
  pending : List (Option Value)

abbrev MachineM := Act FrameContext Frame

/-- Where control goes after an instruction. -/
inductive Flow
  | next
  | jump (pc : Nat)
  | ret (v : Value)

namespace MachineM

variable {α : Type}

/-! ## The stack -/

@[inline] def push (v : Value) : MachineM Unit :=
  Act.modifyOwn fun f => { f with stack := v :: f.stack }

/-- The frame without the topmost value, and that value. -/
@[inline] def popped (f : Frame) : Option Value × Frame :=
  match f.stack with
  | v :: stack => (some v, { f with stack })
  | [] => (none, f)

@[inline] def pop : MachineM Value := do
  match ← Act.changeOwn popped with
  | some v => return v
  | none => Act.defect .stackUnderflow

/-- Pops `n` values at once; the topmost comes last. -/
def popMany (n : Nat) : MachineM (List Value) := do
  let f ← Act.own
  if f.stack.length < n then Act.defect .stackUnderflow
  else
    Act.setOwn { f with stack := f.stack.drop n }
    return (f.stack.take n).reverse

@[inline] def top : MachineM Value := do
  match (← Act.own).stack with
  | v :: _ => return v
  | [] => Act.defect .stackUnderflow

/-! ## Variables and places -/

/-- An entry of an array that must be there. -/
@[inline] def entry (xs : Array Value) (i : Nat) : MachineM Value :=
  match xs[i]? with
  | some v => return v
  | none => Act.defect (.outOfBounds xs.size i)

/-- The closure of the frame. -/
def closureRef : MachineM ClosureRef := do
  match (← read).closure with
  | some c => return c
  | none => Act.defect .frameWithoutClosure

def loadItem (slot : Nat) : MachineM Value := do
  let c ← closureRef
  Act.check (((← Act.world).closure c).get slot)

def storeItem (slot : Nat) (v : Value) : MachineM Unit := do
  let c ← closureRef
  let items ← Act.check (((← Act.world).closure c).set slot v)
  Act.change fun w => ((), w.setClosure c items)

def storeArg (i : Nat) (v : Value) : MachineM Unit := do
  let count := (← Act.own).args.size
  if i < count then Act.modifyOwn fun f => { f with args := f.args.setIfInBounds i v }
  else Act.defect (.outOfBounds count i)

def storeLocal (i : Nat) (v : Value) : MachineM Unit := do
  let count := (← Act.own).locals.size
  if i < count then Act.modifyOwn fun f => { f with locals := f.locals.setIfInBounds i v }
  else Act.defect (.outOfBounds count i)

/-- Access to the variables of a frame. -/
def access : Variables FrameVar FrameContext Frame where
  read
    | .arg i => do entry (← Act.own).args i
    | .localVar i => do entry (← Act.own).locals i
    | .closure slot => loadItem slot
  write
    | .arg i, v => storeArg i v
    | .localVar i, v => storeLocal i v
    | .closure slot, v => storeItem slot v

/-- Reads through an address; other values stand for themselves. -/
def operand : Value → MachineM Value
  | .addr a => a.read access
  | v => return v

/-- Applies `f` to a receiver, in place if it is an address. -/
def withReceiver (receiver : Value) (f : Value → MachineM (Value × Except Stop α)) :
    MachineM α := do
  match receiver with
  | .addr a => a.update access f
  | v =>
    let (_, result) ← f v
    MonadExcept.ofExcept result

/-! ## Calls -/

def hostCall (fn : HostRef) (receiver : Value) (args : List Value) :
    MachineM (Value × Except Stop Value) := do
  let ctx ← read
  Act.hostCall ctx.lib ctx.inv fn receiver args

def hostValue (fn : HostRef) (receiver : Value) (args : List Value) : MachineM Value := do
  let ctx ← read
  Act.hostValue ctx.lib ctx.inv fn receiver args

/-- Replaces the topmost value by the outcome of an operation on it. -/
@[inline] def unary (f : Value → Except Cause Value) : MachineM Unit := do
  let v ← pop
  push (← Act.settle (f v))

/-- Replaces the two topmost values by the outcome of an operation on them. -/
@[inline] def binary (f : Value → Value → Except Cause Value) : MachineM Unit := do
  let right ← pop
  let left ← pop
  push (← Act.settle (f left right))

def callMethod (m : Method) : MachineM Unit := do
  let args ← popMany m.params.length
  let result ←
    if m.isStatic then hostValue m.impl .null args
    else do
      let receiver ← pop
      if receiver.isNull then Act.raise .nullReference
      else withReceiver receiver fun v => hostCall m.impl v args
  unless m.ret.isVoid do push result

def loadElemAddr : MachineM Unit := do
  let index ← pop
  let array ← pop
  let (a, i) ← Act.settle ((← Act.heap).elementAt array index)
  push (.addr (.element a i))

def loadFieldAddr (i : Nat) : MachineM Unit := do
  match ← pop with
  | .addr inner => push (.addr (.field inner i))
  | .object o => push (.addr (.objectField o i))
  | .null => Act.raise .nullReference
  | v => Act.misuse (.unaddressable v i)

def loadField (i : Nat) : MachineM Unit := do
  let receiver ← pop
  let v ← withReceiver receiver fun r => do
    return (r, .ok (← Act.attempt ((← Act.heap).loadField r i)))
  push v

def setProperty (p : Property) : MachineM Unit := do
  let v ← pop
  let receiver ← pop
  match p.setter with
  | none => Act.defect .propertyReadOnly
  | some set =>
    let _ ← withReceiver receiver fun r => hostCall set r [v]

def getIndex (ix : Indexer) : MachineM Unit := do
  let args ← popMany ix.params.length
  let receiver ← operand (← pop)
  if receiver.isNull then Act.raise .nullReference
  push (← hostValue ix.getter receiver args)

def setIndex (ix : Indexer) : MachineM Unit := do
  let v ← pop
  let args ← popMany ix.params.length
  let receiver ← pop
  if receiver.isNull then Act.raise .nullReference
  match ix.setter with
  | none => Act.defect .indexerReadOnly
  | some set =>
    let _ ← withReceiver receiver fun r => hostCall set r (args ++ [v])

def storeThrough : MachineM Unit := do
  let v ← pop
  match ← pop with
  | .addr a => a.update access fun _ => return (v, .ok ())
  | target => Act.defect (.storeThrough (target.describe (← Act.heap)))

def newClosure (layout : Layout) : MachineM Unit := do
  let items ← popMany layout.size
  let c ← Act.check (layout.instantiate items)
  push (.closure (← Act.change fun w => w.newClosure c))

def curry : MachineM Unit := do
  let closure ← pop
  let code ← pop
  match code, closure with
  | .code unit, .closure c => push (.func (.code unit (some c)))
  | code, closure => do
    let h ← Act.heap
    Act.defect (.curry (code.describe h) (closure.describe h))

def endFinally : MachineM Unit := do
  let f ← Act.own
  match f.pending with
  | [] => Act.defect .finallyUnopened
  | p :: pending =>
    Act.setOwn { f with pending }
    if let some exn := p then Act.throwing exn

/-- Whether the value that a branch tests takes it. -/
@[inline] def takes : BranchKind → MachineM Bool
  | .always => return true
  | .ifTrue => return (← pop).isTrue
  | .ifFalse => return !(← pop).isTrue
  | .ifNull => return (← pop).isNull

/-- The effect of an instruction that neither branches nor returns. -/
def effect : Instr → MachineM Unit
  | .nop | .branch _ _ | .ret => return ()
  | .const v => push v
  | .loadArg i => do push (← entry (← Act.own).args i)
  | .storeArg i => do storeArg i (← pop)
  | .loadArgAddr i => push (.addr (.root (.arg i)))
  | .loadLocal i => do push (← entry (← Act.own).locals i)
  | .storeLocal i => do storeLocal i (← pop)
  | .loadLocalAddr i => push (.addr (.root (.localVar i)))
  | .loadItem _ slot => do push (← loadItem slot)
  | .storeItem _ slot => do storeItem slot (← pop)
  | .loadItemAddr slot => push (.addr (.root (.closure slot)))
  | .unbox ty => unary (·.unbox ty)
  | .castClass ty => unary (·.castClass ty)
  | .dup => do push (← top)
  | .pop => do
    let _ ← pop
  | .arith op mode => binary fun a b => a.arith op b mode
  | .negate mode => unary (·.negate mode)
  | .complement => unary Value.complement
  | .compare op => binary fun a b => .ok (.bool (a.compareBy op b))
  | .genericEq => binary fun a b => .ok (.bool (a.same b))
  | .concat => do
    let h ← Act.heap
    binary fun a b => .ok (a.concat h b)
  | .convert ty mode => unary (·.convert ty mode)
  | .unwrap => unary Value.unwrap
  | .arrayLength => do
    let h ← Act.heap
    unary h.arrayLength
  | .call m => callMethod m
  | .invoke argc returns => do
    let args ← popMany argc
    let target ← pop
    let result ← Act.invoke (← read).inv target args
    if returns then push result
  | .new ctor => do
    let args ← popMany ctor.params.length
    push (← hostValue ctor.impl .null args)
  | .newArrayOf elem count => do
    let items ← popMany count
    push (← Act.allocate fun h => h.newArray elem items.toArray)
  | .newArray elem => do
    let length ← pop
    let (v, h) ← Act.attempt ((← Act.heap).newArrayOfLength elem length)
    Act.setHeap h
    push v
  | .loadElem => do
    let h ← Act.heap
    binary h.arrayGet
  | .storeElem => do
    let v ← pop
    let index ← pop
    let array ← pop
    Act.setHeap (← Act.settle ((← Act.heap).arraySet array index v))
  | .loadElemAddr => loadElemAddr
  | .loadField i => loadField i
  | .storeField i => do
    let v ← pop
    let receiver ← pop
    withReceiver receiver fun r => Act.storeField r i v
  | .loadFieldAddr i => loadFieldAddr i
  | .getProperty p => do
    let receiver ← operand (← pop)
    push (← hostValue p.getter receiver [])
  | .setProperty p => setProperty p
  | .loadStatic s => do push ((← Act.heap).loadStatic s)
  | .storeStatic s => do
    let v ← pop
    Act.allocate fun h => ((), h.storeStatic s v)
  | .getIndex ix => getIndex ix
  | .setIndex ix => setIndex ix
  | .storeThrough => storeThrough
  | .default ty => push ty.zero
  | .newClosure layout => newClosure layout
  | .curry => curry
  | .throw => do
    let v ← pop
    Act.throwing (← Act.allocate v.thrown)
  | .enterFinally => Act.modifyOwn fun f => { f with pending := none :: f.pending }
  | .endFinally => endFinally

/-- Executes an instruction. -/
def exec (i : Instr) : MachineM Flow := do
  match i with
  | .branch kind target => return if ← takes kind then .jump target else .next
  | .ret => return .ret (← pop)
  | i =>
    effect i
    return .next

end MachineM

/-! ## Runs -/

/-- The last `n` entries of a list; the whole list if it is shorter. -/
def Frame.bottom {α : Type} (xs : List α) (n : Nat) : List α :=
  xs.drop (xs.length - n)

/-- Whether a handler takes an exception that is thrown at `pc`. -/
def Handler.accepts (e : Handler) (pc : Nat) (exn : Value) : Bool :=
  decide (e.Covers pc) &&
    match e.kind with
    | .catches ty => exn.hasType ty
    | .finally => true

/-- The frame in which a handler starts. -/
def Frame.unwound (f : Frame) (e : Handler) (exn : Value) : Frame :=
  let stack := Frame.bottom f.stack e.stackDepth
  let pending := Frame.bottom f.pending e.finallyDepth
  match e.kind with
  | .catches _ => { f with stack := exn :: stack, pending := pending }
  | .finally => { f with stack := stack, pending := some exn :: pending }

/-- A machine at work. -/
structure MachineState where
  pc : Nat
  frame : Frame
  world : World

/-- What a step leads to. -/
inductive Progress
  | running (s : MachineState)
  | finished (result : Except Stop Value) (w : World)

namespace CodeUnit

/-- One step of a unit. -/
def step (u : CodeUnit) (ctx : FrameContext) (s : MachineState) : Progress :=
  match u.instrs[s.pc]? with
  | none => .finished (.error (.defect (.outOfBounds u.instrs.size s.pc))) s.world
  | some i =>
    match MachineM.exec i ctx (s.frame, s.world) with
    | (.ok .next, frame, world) => .running ⟨s.pc + 1, frame, world⟩
    | (.ok (.jump pc), frame, world) => .running ⟨pc, frame, world⟩
    | (.ok (.ret v), _, world) => .finished (.ok v) world
    | (.error (.thrown exn), frame, world) =>
      match u.handlers.find? fun e => e.accepts s.pc exn with
      | some e => .running ⟨e.target, frame.unwound e exn, world⟩
      | none => .finished (.error (.thrown exn)) world
    | (.error stop, _, world) => .finished (.error stop) world

/-- Runs at most `fuel` steps. -/
def run (u : CodeUnit) (ctx : FrameContext) : Nat → MachineState → Except Stop Value × World
  | 0, s => (.error .exhausted, s.world)
  | fuel + 1, s =>
    match u.step ctx s with
    | .running s => u.run ctx fuel s
    | .finished result w => (result, w)

/-- The frame in which a call starts. -/
def frame (u : CodeUnit) (closure : Option ClosureRef) (args : List Value) : Frame where
  args := (closure.toList.map Value.closure ++ args).toArray
  locals := u.locals.map Ty.zero
  stack := []
  pending := []

/-- Runs a unit on the stack machine. -/
def interpret (u : CodeUnit) (ctx : FrameContext) (fuel : Nat) (args : List Value) (w : World) :
    Except Stop Value × World :=
  u.run ctx fuel ⟨0, u.frame ctx.closure args, w⟩

/-- Throws the exception of a call that does not fit the unit. -/
def refuse (m : Misuse) (w : World) : Except Stop Value × World :=
  let (v, heap) := w.heap.raise (.misuse m)
  (.error (.thrown v), { w with heap := heap })

/-- Calls a unit. Native code runs if there is any and the arguments have its kinds. -/
def invoke (u : CodeUnit) (lib : Library) (inv : Invoker) (fuel : Nat)
    (closure : Option ClosureRef) (args : List Value) (w : World) : Except Stop Value × World :=
  if args.length ≠ u.arity then refuse (.argumentCount u.name u.arity args.length) w
  else if u.layout.isSome ≠ closure.isSome then refuse (.closurePresence u.name closure.isSome) w
  else
    match u.native.bind fun code => (code.start? args).map (code, ·) with
    | some (code, start) =>
      match code.run fuel start with
      | some bits => (.ok (code.ret.ofSlot bits), w)
      | none => (.error .exhausted, w)
    | none => u.interpret ⟨lib, inv, closure⟩ fuel args w

end CodeUnit

end ExprCompiler
