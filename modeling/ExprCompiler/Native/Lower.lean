/-
Lowering of units to native code. Only units without captures and protected regions qualify, whose
values are all 64-bit integers or booleans and whose instructions never throw. The kinds of the
values on the stack are followed from the first instruction to the last; where paths meet they must
agree.
-/
import ExprCompiler.Code.Depth

namespace ExprCompiler

/-- Why a unit keeps to the stack machine. -/
inductive SkipReason
  | tooManyInstructions
  | localType
  | defaultType
  | division
  | shift
  | constantType
  | checkedArithmetic
  | instruction
  | mixedKinds
  | enteredFromBelow
deriving DecidableEq, Repr, Inhabited

def SkipReason.text : SkipReason → String
  | .tooManyInstructions => "too many instructions"
  | .localType => "local type"
  | .defaultType => "default type"
  | .division => "division"
  | .shift => "shift"
  | .constantType => "constant type"
  | .checkedArithmetic => "checked arithmetic"
  | .instruction => "instruction"
  | .mixedKinds => "mixed stack kinds at join"
  | .enteredFromBelow => "block entered only from below"

/-- Why lowering stops. -/
inductive LowerError
  | skip (reason : SkipReason)
  | malformed (p : DepthProblem)
  | defect (d : Defect)

/-- What is known where a run of instructions without joins starts: nothing if no branch to it has
been met, else the kinds of the values on the stack. -/
abbrev EntryKinds := Array (Option (List SlotKind))

namespace Lower

/-- What lowering knows about a unit. -/
structure Context where
  instrs : Array Instr
  depths : Depths
  /-- The kinds of the arguments and the locals. -/
  slots : Array SlotKind
  argCount : Nat

/-- The starts of blocks: targets of branches and what follows a transfer of control. -/
def startsAfter (instr : Instr) (pc : Nat) : List Nat :=
  match instr.target? with
  | some t => [t, pc + 1]
  | none => if instr.endsFlow then [pc + 1] else []

/-- For each instruction, whether a block starts there that control reaches. -/
def blocks (instrs : Array Instr) (depths : Depths) : Array Bool :=
  let starts := instrs.toList.zipIdx.flatMap fun (i, pc) => startsAfter i pc
  starts.foldl
    (fun marks pc => if depths[pc]?.join.isSome then marks.setIfInBounds pc true else marks)
    (Array.replicate instrs.size false)

/-- Records that control passes to a block with the given kinds on the stack. -/
def edge (entries : EntryKinds) (target : Nat) (stack : List SlotKind) :
    Except LowerError EntryKinds :=
  match entries[target]?.join with
  | some kinds => if kinds = stack then .ok entries else .error (.skip .mixedKinds)
  | none => .ok (entries.setIfInBounds target (some stack))

/-- The kind of a slot. -/
def slotKind (s : Context) (index : Nat) : Except LowerError SlotKind :=
  match s.slots[index]? with
  | some k => .ok k
  | none => .error (.defect (.outOfBounds s.slots.size index))

/-- A binary operator that cannot throw. -/
def slotOp : ArithOp → Except LowerError SlotOp
  | .add => .ok .add
  | .sub => .ok .sub
  | .mul => .ok .mul
  | .and => .ok .and
  | .or => .ok .or
  | .xor => .ok .xor
  | .div | .rem => .error (.skip .division)
  | .shl | .shr => .error (.skip .shift)

/-- A lowered instruction with the kinds on the stack after it, unless control goes elsewhere. -/
structure Lowered where
  op : NativeOp
  after : Option (List SlotKind)
  entries : EntryKinds

/-- Lowers one instruction. -/
def instruction (s : Context) (entries : EntryKinds) (pc : Nat) (instr : Instr)
    (stack : List SlotKind) : Except LowerError Lowered :=
  let go (op : NativeOp) (after : List SlotKind) : Except LowerError Lowered :=
    .ok ⟨op, some after, entries⟩
  match instr, stack with
  | .nop, st => go .nop st
  | .const (.int ⟨.i64, bits⟩), st => go (.const (.ofBitVec bits)) (.int :: st)
  | .const (.bool b), st => go (.const (if b then 1 else 0)) (.bool :: st)
  | .const _, _ => .error (.skip .constantType)
  | .default ty, st =>
    match SlotKind.ofTy? ty with
    | some k => go (.const 0) (k :: st)
    | none => .error (.skip .defaultType)
  | .loadArg i, st => do go (.load i) ((← slotKind s i) :: st)
  | .loadLocal i, st => do go (.load (s.argCount + i)) ((← slotKind s (s.argCount + i)) :: st)
  | .storeArg i, _ :: st => do
    let _ ← slotKind s i
    go (.store i) st
  | .storeLocal i, _ :: st => do
    let _ ← slotKind s (s.argCount + i)
    go (.store (s.argCount + i)) st
  | .dup, k :: st => go .dup (k :: k :: st)
  | .pop, _ :: st => go .pop st
  | .arith op .wrap, _ :: k :: st => do go (.binary (← slotOp op)) (k :: st)
  | .negate .wrap, k :: st => go .negate (k :: st)
  | .complement, .bool :: st => go .flip (.bool :: st)
  | .complement, .int :: st => go .complement (.int :: st)
  | .compare op, _ :: _ :: st => go (.compare op) (.bool :: st)
  | .genericEq, _ :: _ :: st => go (.compare .eq) (.bool :: st)
  | .branch .always t, st => do return ⟨.jump t, none, ← edge entries t st⟩
  | .branch .ifTrue t, _ :: st => do
    return ⟨.jumpIf t, none, ← edge (← edge entries t st) (pc + 1) st⟩
  | .branch .ifFalse t, _ :: st => do
    return ⟨.jumpUnless t, none, ← edge (← edge entries t st) (pc + 1) st⟩
  | .ret, _ :: _ => .ok ⟨.ret, none, entries⟩
  | .arith _ .wrap, _ | .negate .wrap, _ => .error (.malformed (.underflow pc instr))
  | .arith _ _, _ | .negate _, _ => .error (.skip .checkedArithmetic)
  | .storeArg _, [] | .storeLocal _, [] | .dup, [] | .pop, [] | .complement, [] | .compare _, _
  | .genericEq, _ | .branch .ifTrue _, [] | .branch .ifFalse _, [] | .ret, [] =>
    .error (.malformed (.underflow pc instr))
  | _, _ => .error (.skip .instruction)

/-- Lowers the instructions from `pc` on. `stack` holds the kinds of the values on the stack, if
control comes from the instruction before. -/
def instructions (s : Context) (starts : Array Bool) (pc : Nat) (stack : Option (List SlotKind))
    (entries : EntryKinds) (ops : Array NativeOp) : List Instr → Except LowerError (Array NativeOp)
  | [] => if stack.isSome then .error (.malformed (.pastEnd pc)) else .ok ops
  | instr :: rest => do
    let isStart := starts[pc]?.getD false
    let entries ← match stack with
      | some st => if isStart then edge entries pc st else pure entries
      | none => pure entries
    let stack := if isStart then entries[pc]?.join else stack
    match stack with
    | some st =>
      let lowered ← instruction s entries pc instr st
      instructions s starts (pc + 1) lowered.after lowered.entries (ops.push lowered.op) rest
    | none =>
      if s.depths[pc]?.join.isSome then throw (.skip .enteredFromBelow)
      else instructions s starts (pc + 1) none entries (ops.push .trap) rest

/-- Lowers a unit whose parameters have the given kinds. -/
def code (u : CodeUnit) (params : List SlotKind) (ret : SlotKind) :
    Except LowerError NativeCode := do
  match u.locals.toList.mapM SlotKind.ofTy? with
  | none => throw (.skip .localType)
  | some locals =>
    match u.depths with
    | .error p => throw (.malformed p)
    | .ok depths =>
      let s : Context := ⟨u.instrs, depths, (params ++ locals).toArray, params.length⟩
      let ops ← instructions s (blocks u.instrs depths) 0 (some [])
        (Array.replicate u.instrs.size none) #[] u.instrs.toList
      return ⟨params, ret, locals.length, ops⟩

end Lower

/-- The result of lowering a unit. -/
inductive Lowering
  | native (code : NativeCode)
  /-- The unit has captures or protected regions, or its signature has no native form. -/
  | ineligible
  | skipped (reason : SkipReason)
  | failed (p : DepthProblem)

/-- Lowers a unit of at most `maxInstructions` instructions. -/
def CodeUnit.lower (u : CodeUnit) (maxInstructions : Nat) : Except Defect Lowering :=
  if u.layout.isSome || !u.handlers.isEmpty then .ok .ineligible
  else if maxInstructions < u.instrs.size then .ok (.skipped .tooManyInstructions)
  else
    match u.params.mapM SlotKind.ofTy?, SlotKind.ofTy? u.ret with
    | some params, some ret =>
      match Lower.code u params ret with
      | .ok code => .ok (.native code)
      | .error (.skip reason) => .ok (.skipped reason)
      | .error (.malformed p) => .ok (.failed p)
      | .error (.defect d) => .error d
    | _, _ => .ok .ineligible

end ExprCompiler
