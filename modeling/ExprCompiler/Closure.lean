/-
Closures and their layouts. A unit with captures runs with one closure that holds, in this order,
the constants, the captured parameters and the nested lambdas of the unit. `Layout.slot` is the one
place that turns this order into positions.
-/
import ExprCompiler.Defect

namespace ExprCompiler

/-- How the items of a closure are stored. -/
inductive Strategy
  /-- One typed field per item, in a record of fixed size. -/
  | fixed
  /-- One untyped sequence; what is read from it is checked. -/
  | indexed
deriving DecidableEq, Repr, Inhabited

def Strategy.name : Strategy → String
  | .fixed => "Fixed" | .indexed => "Indexed"

/-- The item types of a closure by group, and how the items are stored. -/
structure Layout where
  constants : List Ty
  params : List Ty
  nested : List Ty
  strategy : Strategy
deriving DecidableEq

/-- A materialised closure. -/
structure Closure where
  strategy : Strategy
  items : Array Value

namespace Layout

/-- Records have at most this many fields. -/
def maxFields : Nat := 16

/-- The layout of the given item types: a record of up to `limit` items, a sequence above. -/
def ofTypes (constants params nested : List Ty) (limit : Nat) : Layout where
  constants := constants
  params := params
  nested := nested
  strategy :=
    if constants.length + params.length + nested.length ≤ min limit maxFields then .fixed
    else .indexed

/-- All item types in order. -/
def itemTypes (l : Layout) : List Ty :=
  l.constants ++ l.params ++ l.nested

def size (l : Layout) : Nat :=
  l.itemTypes.length

/-- The number of items of a group. -/
def count (l : Layout) : ItemKind → Nat
  | .constant => l.constants.length
  | .param => l.params.length
  | .nested => l.nested.length

/-- Where a group starts. -/
def base (l : Layout) : ItemKind → Nat
  | .constant => 0
  | .param => l.constants.length
  | .nested => l.constants.length + l.params.length

/-- The position of item `index` of a group. Positions are 16-bit numbers. -/
def slot (l : Layout) (kind : ItemKind) (index : Nat) : Except Defect Nat :=
  if index < l.count kind then .ok ((l.base kind + index) % Nat.pow 2 16)
  else .error (.itemMissing kind index (l.count kind))

def itemType (l : Layout) (slot : Nat) : Except Defect Ty :=
  match l.itemTypes[slot]? with
  | some ty => .ok ty
  | none => .error (.outOfBounds l.size slot)

/-- A closure with the given items. There is no record without fields. -/
def instantiate (l : Layout) (items : List Value) : Except Defect Closure :=
  if items.length ≠ l.size then .error (.itemCount items.length l.size)
  else if l.strategy = .fixed ∧ items = [] then .error (.recordArity 0)
  else .ok ⟨l.strategy, items.toArray⟩

/-- The listing form of a layout. -/
def describe (l : Layout) : String :=
  Text.record "ClosureLayout"
    [("constants", toString l.constants.length), ("params", toString l.params.length),
      ("nested", toString l.nested.length),
      ("item_types", Text.bracketed (l.itemTypes.map Ty.text)), ("strategy", l.strategy.name)]

end Layout

namespace Closure

def get (c : Closure) (slot : Nat) : Except Defect Value :=
  match c.items[slot]? with
  | some v => .ok v
  | none => .error (.outOfBounds c.items.size slot)

def set (c : Closure) (slot : Nat) (v : Value) : Except Defect Closure :=
  if slot < c.items.size then .ok { c with items := c.items.setIfInBounds slot v }
  else .error (.outOfBounds c.items.size slot)

end Closure

end ExprCompiler
