/-
Code under construction. Branches name labels, which may be bound before or after the branch. A branch
to a label that is not bound yet is written with a placeholder and noted down; binding the label puts
its position into the branches that wait for it. The builder follows the depth of the stack; it knows
none after control has left, until the next label is bound.
-/
import ExprCompiler.Code.Unit

namespace ExprCompiler

/-- What is known about a label. -/
structure LabelState where
  pc : Option Nat := none
  /-- The depth that every path to the label must have. -/
  depth : Option Nat := none
deriving Inhabited

/-- A branch that waits for its label to be bound. -/
structure Fixup where
  /-- The position of the branch. -/
  pc : Nat
  label : Nat
deriving DecidableEq

structure Builder where
  name : String
  params : List Ty
  ret : Ty
  layout : Option Layout
  instrs : Array Instr := #[]
  fixups : Array Fixup := #[]
  locals : Array Ty := #[]
  labels : Array LabelState := #[]
  handlers : Array Handler := #[]
  depth : Option Nat := some 0
  maxDepth : Nat := 0
  /-- The number of finally bodies that are open. -/
  finallyNesting : Nat := 0

namespace Builder

/-- The position of the next instruction. -/
def pc (b : Builder) : Nat :=
  b.instrs.size

def isReachable (b : Builder) : Bool :=
  b.depth.isSome

/-- Adds a local variable and gives its index, a 16-bit number. -/
def newLocal (b : Builder) (ty : Ty) : Nat × Builder :=
  (b.locals.size % Nat.pow 2 16, { b with locals := b.locals.push ty })

/-- The target of a branch to a label that is not bound yet. -/
def unboundTarget : Nat := Nat.pow 2 64 - 1

/-- Adjusts the depth for an instruction. Only instructions that need operands can lack them, and
none of those holds a value. -/
def apply (b : Builder) (instr : Instr) : Except Defect Builder :=
  match b.depth with
  | none => .ok b
  | some depth =>
    if depth < instr.pops then .error (.emitUnderflow (instr.text {}) depth b.name)
    else
      let after := depth - instr.pops + instr.pushes
      .ok { b with depth := some after, maxDepth := max b.maxDepth after }

/-- Keeps count of the open finally bodies. -/
def nest (b : Builder) : Instr → Except Defect Builder
  | .enterFinally => .ok { b with finallyNesting := b.finallyNesting + 1 }
  | .endFinally =>
    if b.finallyNesting = 0 then .error .finallyUnopened
    else .ok { b with finallyNesting := b.finallyNesting - 1 }
  | _ => .ok b

/-- Appends an instruction that is no branch. -/
def emit (b : Builder) (instr : Instr) : Except Defect Builder := do
  if instr.target?.isSome then throw .branchEmitted
  let b ← b.nest instr
  let b ← b.apply instr
  let depth := if instr.endsFlow then none else b.depth
  return { b with depth, instrs := b.instrs.push instr }

def newLabel (b : Builder) : Nat × Builder :=
  (b.labels.size, { b with labels := b.labels.push {} })

/-- The state of a label. -/
def labelState (b : Builder) (label : Nat) : Except Defect LabelState :=
  match b.labels[label]? with
  | some s => .ok s
  | none => .error (.outOfBounds b.labels.size label)

/-- Requires a depth of every path to a label. -/
def merge (b : Builder) (label depth : Nat) : Except Defect Builder := do
  let s ← b.labelState label
  match s.depth with
  | some expected => if expected = depth then return b else throw (.depthsDisagree label b.name)
  | none => return { b with labels := b.labels.setIfInBounds label { s with depth := some depth } }

/-- Requires the current depth, if control comes here, of every path to a label. -/
def mergeCurrent (b : Builder) (label : Nat) : Except Defect Builder :=
  match b.depth with
  | some depth => b.merge label depth
  | none => .ok b

/-- Appends a branch to a label, bound or not. -/
def branch (b : Builder) (kind : BranchKind) (label : Nat) : Except Defect Builder := do
  let s ← b.labelState label
  let target := s.pc.getD unboundTarget
  let b ← b.apply (.branch kind target)
  let b ← b.mergeCurrent label
  let depth := if kind = .always then none else b.depth
  let fixups := if target = unboundTarget then b.fixups.push ⟨b.pc, label⟩ else b.fixups
  return { b with depth, fixups, instrs := b.instrs.push (.branch kind target) }

/-- Puts a target into the branches at the positions of the fixups. -/
def patch (instrs : Array Instr) (fixups : Array Fixup) (target : Nat) : Array Instr :=
  fixups.foldl (fun instrs f => instrs.modify f.pc (·.retarget target)) instrs

/-- Binds a label to the next instruction, where the branches that wait for it then lead. -/
def mark (b : Builder) (label : Nat) : Except Defect Builder := do
  let s ← b.labelState label
  if s.pc.isSome then throw (.markedTwice label)
  let b ← b.mergeCurrent label
  let s ← b.labelState label
  return { b with
    labels := b.labels.setIfInBounds label { s with pc := some b.pc }
    depth := s.depth
    instrs := patch b.instrs (b.fixups.filter (·.label = label)) b.pc
    fixups := b.fixups.filter (·.label ≠ label) }

/-- Binds a label at which exceptions enter with a given depth. -/
def markEntry (b : Builder) (label depth : Nat) : Except Defect Builder := do
  (← b.merge label depth).mark label

/-- The position of a bound label. -/
def labelPc (b : Builder) (label : Nat) : Except Defect Nat := do
  match (← b.labelState label).pc with
  | some pc => return pc
  | none => throw .unmarkedPosition

def addHandler (b : Builder) (e : Handler) : Builder :=
  { b with handlers := b.handlers.push e }

/-- The finished unit, in which no branch waits for its label. -/
def finish (b : Builder) : Except Defect CodeUnit :=
  if b.fixups.size ≠ 0 then .error (.unmarkedBranches b.fixups.size b.name)
  else if b.finallyNesting ≠ 0 then .error (.finallyUnbalanced b.name)
  else
    .ok
      { name := b.name
        params := b.params
        ret := b.ret
        layout := b.layout
        locals := b.locals
        instrs := b.instrs
        handlers := b.handlers.toList
        maxStack := b.maxDepth
        native := none }

end Builder

end ExprCompiler
