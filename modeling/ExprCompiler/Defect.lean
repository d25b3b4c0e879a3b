/-
Defects: violations of the rules that code, closures and trees are built by. A defect ends the
operation that meets it; it is no exception of the computed program and cannot be caught there.
-/
import ExprCompiler.Value.Text

namespace ExprCompiler

/-- The three groups of closure items, in the order in which a closure holds them. -/
inductive ItemKind
  | constant | param | nested
deriving DecidableEq, Repr, Inhabited

def ItemKind.name : ItemKind → String
  | .constant => "Constant" | .param => "Param" | .nested => "Nested"

inductive Defect
  | outOfBounds (length index : Nat)
  | capacityOverflow
  /- code under construction -/
  | branchEmitted
  | emitUnderflow (instr : String) (depth : Nat) (unit : String)
  | depthsDisagree (label : Nat) (unit : String)
  | markedTwice (label : Nat)
  | unmarkedPosition
  | unmarkedBranches (count : Nat) (unit : String)
  | finallyUnopened
  | finallyUnbalanced (unit : String)
  /- closures -/
  | itemMissing (kind : ItemKind) (index count : Nat)
  | itemCount (given expected : Nat)
  | bindCount (given expected : Nat)
  | recordArity (count : Nat)
  | notAnalysed
  | unitWithoutClosure
  | frameWithoutClosure
  | curryableWithoutLayout
  | capturedAtRoot
  /- running code -/
  | stackUnderflow
  | propertyReadOnly
  | indexerReadOnly
  | storeThrough (target : String)
  | curry (code closure : String)
  | malformedUnit (unit problem : String)
  | dangling (id : Nat)
  /- arenas of nodes -/
  | childAfterParent (child : Nat)
  | noRoot
deriving DecidableEq, Inhabited

/-- What is reported of a defect. -/
def Defect.message : Defect → String
  | .outOfBounds length index => s!"index out of bounds: the len is {length} but the index is {index}"
  | .capacityOverflow => "capacity overflow"
  | .branchEmitted => "branches go through CodeBuilder::branch"
  | .emitUnderflow instr depth unit => s!"stack underflow emitting {instr} at depth {depth} in {unit}"
  | .depthsDisagree label unit =>
    s!"control paths reach label {label} of {unit} at different stack depths"
  | .markedTwice label => s!"label {label} marked twice"
  | .unmarkedPosition => "label must be marked before its position is used"
  | .unmarkedBranches count unit => s!"{count} branches to unmarked labels in {unit}"
  | .finallyUnopened => "endfinally without enterfinally"
  | .finallyUnbalanced unit => s!"unbalanced finally in {unit}"
  | .itemMissing kind index count =>
    "closure layout mismatch: " ++ kind.name ++ s!" item {index} of {count}"
  | .itemCount given expected =>
    s!"closure layout mismatch: {given} items for a layout of {expected}"
  | .bindCount given expected =>
    s!"closure layout mismatch: binding {given} items to a layout of {expected}"
  | .recordArity count => s!"no fixed closure record of arity {count}"
  | .notAnalysed => "closure layout mismatch: "
  | .unitWithoutClosure => "closure layout mismatch: unit has no closure"
  | .frameWithoutClosure => "closure layout mismatch: frame has no closure"
  | .curryableWithoutLayout => "closure layout mismatch: curryable unit without a layout"
  | .capturedAtRoot => "root closure cannot hold captured parameters"
  | .stackUnderflow => "evaluation stack underflow"
  | .propertyReadOnly => "emitter stores only through writable properties"
  | .indexerReadOnly => "emitter stores only through writable indexers"
  | .storeThrough target => s!"stind through {target}"
  | .curry code closure => s!"curry of {code} with {closure}"
  | .malformedUnit unit problem => s!"emitted unit {unit} is malformed: {problem}"
  | .dangling id => s!"nothing is stored under reference {id}"
  | .childAfterParent child => s!"child FlatId({child}) pushed after its parent"
  | .noRoot => "flat tree has no root"

end ExprCompiler
