/-
Result types and classes. A class carries its base and its fields, inherited ones first; a serial
number tells apart classes declared alike, so equality of types is equality of data.
-/
import ExprCompiler.Word
import ExprCompiler.Text.Quoted

namespace ExprCompiler

mutual

/-- A result type. -/
inductive Ty
  | void
  | bool
  | int (kind : IntKind)
  | f64
  | str
  /-- Any value; every other type converts to it. -/
  | object
  /-- The type of type tokens. -/
  | token
  | cls (c : Class)
  | array (elem : Ty)
  | nullable (inner : Ty)
  | func (params : List Ty) (ret : Ty)

/-- A class. Instances of a value-type class are copied, those of the others are shared. -/
inductive Class
  | mk (serial : Nat) (name : String) (valueType : Bool) (base : Option Class)
      (fields : List Field)

/-- An instance field. -/
inductive Field
  | mk (name : String) (ty : Ty)

end

instance : Inhabited Ty := ⟨.void⟩

/-! ## Equality -/

mutual

def Ty.beq (a b : Ty) : Bool :=
  match a, b with
  | .void, .void | .bool, .bool | .f64, .f64 | .str, .str | .object, .object | .token, .token => true
  | .int k, .int l => k == l
  | .cls c, .cls d => c.beq d
  | .array a, .array b => a.beq b
  | .nullable a, .nullable b => a.beq b
  | .func ps r, .func qs s => Ty.beqList ps qs && r.beq s
  | _, _ => false
termination_by structural a

def Ty.beqList (as bs : List Ty) : Bool :=
  match as, bs with
  | [], [] => true
  | a :: as, b :: bs => a.beq b && Ty.beqList as bs
  | _, _ => false
termination_by structural as

def Class.beq (a b : Class) : Bool :=
  match a, b with
  | .mk i n v b fs, .mk j m w c gs =>
    i == j && n == m && v == w && Class.beqBase b c && Field.beqList fs gs
termination_by structural a

def Class.beqBase (a b : Option Class) : Bool :=
  match a, b with
  | none, none => true
  | some a, some b => a.beq b
  | _, _ => false
termination_by structural a

def Field.beq (a b : Field) : Bool :=
  match a, b with
  | .mk n t, .mk m u => n == m && t.beq u
termination_by structural a

def Field.beqList (as bs : List Field) : Bool :=
  match as, bs with
  | [], [] => true
  | a :: as, b :: bs => a.beq b && Field.beqList as bs
  | _, _ => false
termination_by structural as

end

mutual

theorem Ty.eq_of_beq : ∀ {a b : Ty}, a.beq b = true → a = b
  | .void, b, h | .bool, b, h | .f64, b, h | .str, b, h | .object, b, h | .token, b, h => by
    cases b <;> simp_all [Ty.beq]
  | .int k, b, h => by cases b <;> simp_all [Ty.beq]
  | .cls c, b, h => by
    cases b <;> simp [Ty.beq] at h
    simp [Class.eq_of_beq h]
  | .array a, b, h => by
    cases b <;> simp [Ty.beq] at h
    simp [Ty.eq_of_beq h]
  | .nullable a, b, h => by
    cases b <;> simp [Ty.beq] at h
    simp [Ty.eq_of_beq h]
  | .func ps r, b, h => by
    cases b <;> simp [Ty.beq] at h
    simp [Ty.eq_of_beqList h.1, Ty.eq_of_beq h.2]

theorem Ty.eq_of_beqList : ∀ {as bs : List Ty}, Ty.beqList as bs = true → as = bs
  | [], bs, h => by cases bs <;> simp_all [Ty.beqList]
  | a :: as, bs, h => by
    cases bs <;> simp [Ty.beqList] at h
    simp [Ty.eq_of_beq h.1, Ty.eq_of_beqList h.2]

theorem Class.eq_of_beq : ∀ {a b : Class}, a.beq b = true → a = b
  | .mk i n v b fs, .mk j m w c gs, h => by
    simp [Class.beq] at h
    obtain ⟨⟨⟨⟨rfl, rfl⟩, rfl⟩, hb⟩, hf⟩ := h
    simp [Class.eq_of_beqBase hb, Field.eq_of_beqList hf]

theorem Class.eq_of_beqBase : ∀ {a b : Option Class}, Class.beqBase a b = true → a = b
  | none, b, h => by cases b <;> simp_all [Class.beqBase]
  | some a, b, h => by
    cases b <;> simp [Class.beqBase] at h
    simp [Class.eq_of_beq h]

theorem Field.eq_of_beq : ∀ {a b : Field}, a.beq b = true → a = b
  | .mk n t, .mk m u, h => by
    simp [Field.beq] at h
    simp [h.1, Ty.eq_of_beq h.2]

theorem Field.eq_of_beqList : ∀ {as bs : List Field}, Field.beqList as bs = true → as = bs
  | [], bs, h => by cases bs <;> simp_all [Field.beqList]
  | a :: as, bs, h => by
    cases bs <;> simp [Field.beqList] at h
    simp [Field.eq_of_beq h.1, Field.eq_of_beqList h.2]

end

mutual

theorem Ty.beq_refl : ∀ a : Ty, a.beq a = true
  | .void | .bool | .f64 | .str | .object | .token => by simp [Ty.beq]
  | .int k => by simp [Ty.beq]
  | .cls c => by simpa [Ty.beq] using Class.beq_refl c
  | .array a => by simpa [Ty.beq] using Ty.beq_refl a
  | .nullable a => by simpa [Ty.beq] using Ty.beq_refl a
  | .func ps r => by simp [Ty.beq, Ty.beqList_refl ps, Ty.beq_refl r]

theorem Ty.beqList_refl : ∀ as : List Ty, Ty.beqList as as = true
  | [] => by simp [Ty.beqList]
  | a :: as => by simp [Ty.beqList, Ty.beq_refl a, Ty.beqList_refl as]

theorem Class.beq_refl : ∀ a : Class, a.beq a = true
  | .mk i n v b fs => by simp [Class.beq, Class.beqBase_refl b, Field.beqList_refl fs]

theorem Class.beqBase_refl : ∀ a : Option Class, Class.beqBase a a = true
  | none => by simp [Class.beqBase]
  | some a => by simpa [Class.beqBase] using Class.beq_refl a

theorem Field.beq_refl : ∀ a : Field, a.beq a = true
  | .mk n t => by simpa [Field.beq] using Ty.beq_refl t

theorem Field.beqList_refl : ∀ as : List Field, Field.beqList as as = true
  | [] => by simp [Field.beqList]
  | a :: as => by simp [Field.beqList, Field.beq_refl a, Field.beqList_refl as]

end

instance : DecidableEq Ty := fun a b =>
  if h : a.beq b then isTrue (Ty.eq_of_beq h)
  else isFalse fun e => h (e ▸ Ty.beq_refl a)

instance : DecidableEq Class := fun a b =>
  if h : a.beq b then isTrue (Class.eq_of_beq h)
  else isFalse fun e => h (e ▸ Class.beq_refl a)

instance : DecidableEq Field := fun a b =>
  if h : a.beq b then isTrue (Field.eq_of_beq h)
  else isFalse fun e => h (e ▸ Field.beq_refl a)

/-- The parameter and result types of a callable. -/
structure Signature where
  params : List Ty
  ret : Ty
deriving DecidableEq

/-! ## Classes -/

namespace Field

def name : Field → String
  | .mk n _ => n

def ty : Field → Ty
  | .mk _ t => t

end Field

namespace Class

def serial : Class → Nat
  | .mk i _ _ _ _ => i

def name : Class → String
  | .mk _ n _ _ _ => n

def isValueType : Class → Bool
  | .mk _ _ v _ _ => v

def base : Class → Option Class
  | .mk _ _ _ b _ => b

/-- All instance fields, inherited ones first. -/
def fields : Class → List Field
  | .mk _ _ _ _ fs => fs

instance : Inhabited Class := ⟨.mk 0 "" false none []⟩

/-- Position of the first field of that name. -/
def fieldIndex? (c : Class) (name : String) : Option Nat :=
  c.fields.findIdx? (·.name == name)

/-- `c` is `other` or one of its subclasses. -/
def derivesFrom (c other : Class) : Bool :=
  c == other || match c with
    | .mk _ _ _ (some b) _ => b.derivesFrom other
    | .mk _ _ _ none _ => false
termination_by structural c

end Class

/-- A class under declaration. -/
structure ClassDraft where
  name : String
  valueType : Bool := false
  base : Option Class := none
  fields : List Field := []

namespace ClassDraft

/-- Adds a field behind the ones declared so far. -/
def field (d : ClassDraft) (name : String) (ty : Ty) : ClassDraft :=
  { d with fields := d.fields ++ [.mk name ty] }

/-- Makes `base` the base class; its fields go in front. -/
def extending (d : ClassDraft) (base : Class) : ClassDraft :=
  { d with fields := base.fields ++ d.fields, base := some base }

/-- The declared class, told apart from all others by its serial number. -/
def finish (d : ClassDraft) (serial : Nat) : Class :=
  .mk serial d.name d.valueType d.base d.fields

end ClassDraft

/-! ## Properties of types -/

namespace Ty

def isVoid : Ty → Bool
  | .void => true
  | _ => false

/-- Booleans and numbers. -/
def isPrimitive : Ty → Bool
  | .bool | .int _ | .f64 => true
  | _ => false

def isNumeric : Ty → Bool
  | .int _ | .f64 => true
  | _ => false

def isInteger : Ty → Bool
  | .int _ => true
  | _ => false

def isUnsigned : Ty → Bool
  | .int k => !k.signed
  | _ => false

/-- Types whose values are stored inline and copied: primitives, nullables, value-type classes. -/
def isValueType : Ty → Bool
  | .nullable _ => true
  | .cls c => c.isValueType
  | t => t.isPrimitive

/-- A value-type class. -/
def isStruct : Ty → Bool
  | .cls c => c.isValueType
  | _ => false

def isReference (t : Ty) : Bool :=
  !t.isVoid && !t.isValueType

def isNullable : Ty → Bool
  | .nullable _ => true
  | _ => false

/-- Whether null is a value of the type. -/
def admitsNull (t : Ty) : Bool :=
  t.isNullable || t.isReference

/-- The type under a nullable, or the type itself. -/
def nonNullable : Ty → Ty
  | .nullable inner => inner
  | t => t

def class? : Ty → Option Class
  | .cls c => some c
  | _ => none

def element? : Ty → Option Ty
  | .array elem => some elem
  | _ => none

def signature? : Ty → Option Signature
  | .func params ret => some ⟨params, ret⟩
  | _ => none

/-- A value of type `source` may be stored where `target` is expected. -/
def accepts (target source : Ty) : Bool :=
  target == source || match target, source with
    | .object, source => source.isReference
    | .cls c, .cls d => d.derivesFrom c
    | _, _ => false

mutual

/-- The text of a type. -/
def text : Ty → String
  | .void => "void"
  | .bool => "bool"
  | .int k => k.name
  | .f64 => "f64"
  | .str => "string"
  | .object => "object"
  | .token => "type"
  | .cls c => c.name
  | .array elem => elem.text ++ "[]"
  | .nullable inner => inner.text ++ "?"
  | .func params ret => "fn(" ++ ", ".intercalate (textList params) ++ ") -> " ++ ret.text

def textList : List Ty → List String
  | [] => []
  | t :: ts => t.text :: textList ts

end

end Ty

def Signature.toTy (s : Signature) : Ty :=
  .func s.params s.ret

def Signature.text (s : Signature) : String :=
  s.toTy.text

/-- The listing form of a field. -/
def Field.describe (f : Field) : String :=
  Text.record "FieldDef" [("name", Text.quote f.name), ("ty", f.ty.text)]

/-- The listing form of a class. -/
def Class.describe (c : Class) : String :=
  Text.record "ClassDef" [("name", Text.quote c.name), ("value_type", toString c.isValueType),
    ("fields", Text.bracketed (c.fields.map Field.describe))]

/-- How an operation over operands of type `t` treats overflow. -/
def Overflow.select (checked : Bool) (t : Ty) : Overflow :=
  if !checked then .wrap
  else if t.nonNullable.isUnsigned then .unsigned
  else .signed

end ExprCompiler
