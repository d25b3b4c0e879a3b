/-
What the host declares beside classes and their methods: constructors, properties, static cells and
indexers. Each names the host function behind it.
-/
import ExprCompiler.Defect

namespace ExprCompiler

structure Constructor where
  ty : Ty
  params : List Ty
  impl : HostRef
deriving DecidableEq

/-- The listing form of a constructor. -/
def Constructor.describe (c : Constructor) : String :=
  "new " ++ c.ty.text ++ s!"({c.params.length} args)"

structure Property where
  name : String
  ty : Ty
  getter : HostRef
  setter : Option HostRef
deriving DecidableEq

/-- Indexed access to a receiver. -/
structure Indexer where
  owner : Ty
  params : List Ty
  ty : Ty
  getter : HostRef
  setter : Option HostRef
deriving DecidableEq

/-- The listing form of an indexer. -/
def Indexer.describe (ix : Indexer) : String :=
  ix.owner.text ++ s!"[{ix.params.length} args]"

/-- The target of a member access. -/
inductive Member
  /-- An instance field, by its position in the class. -/
  | field (cls : Class) (index : Nat)
  | property (p : Property)
  | static (s : StaticRef)
deriving DecidableEq

namespace Member

/-- The instance field of that name. -/
def field? (cls : Class) (name : String) : Option Member :=
  (cls.fieldIndex? name).map (.field cls)

/-- The declared field at a position. -/
def fieldAt (cls : Class) (index : Nat) : Except Defect Field :=
  match cls.fields[index]? with
  | some f => .ok f
  | none => .error (.outOfBounds cls.fields.length index)

def ty : Member → Except Defect Ty
  | .field cls index => (fieldAt cls index).map Field.ty
  | .property p => .ok p.ty
  | .static s => .ok s.ty

def name : Member → Except Defect String
  | .field cls index => (fieldAt cls index).map Field.name
  | .property p => .ok p.name
  | .static s => .ok s.name

def isStatic : Member → Bool
  | .static _ => true
  | _ => false

def isWritable : Member → Bool
  | .property p => p.setter.isSome
  | _ => true

/-- The listing form of a member. -/
def describe (m : Member) : Except Defect String :=
  match m with
  | .field cls _ => m.name.map fun n => "field " ++ cls.name ++ "." ++ n
  | .property p => .ok ("property " ++ p.name)
  | .static s => .ok ("static " ++ s.name)

end Member

end ExprCompiler
