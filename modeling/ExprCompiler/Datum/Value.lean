/-
Types, members and values as data. A value is a record whose key says its kind.
-/
import ExprCompiler.Datum.Environment

namespace ExprCompiler.Datum

open ReadM

/-! ## Types -/

/-- The types that are written as a word. -/
def wordTypes : Names Ty :=
  [("void", .void), ("bool", .bool), ("i32", .int .i32), ("i64", .int .i64), ("u32", .int .u32),
    ("u64", .int .u64), ("f64", .f64), ("string", .str), ("object", .object), ("type", .token)]

/-- A type: a word, the name of a class, or a form. -/
def ty : Datum → ReadM Ty :=
  inward fun ty d => do
    match d with
    | .text s =>
      match wordTypes.lookup s with
      | some t => return t
      | none => return .cls (← d.cls)
    | _ =>
      match ← d.form with
      | ("array", [t]) => return .array (← ty t)
      | ("nullable", [t]) => return .nullable (← ty t)
      | ("func", [ps, r]) => return .func (← many ty ps) (← ty r)
      | _ => malformed "a type"

def tys : Datum → ReadM (List Ty) :=
  many ty

/-- A member; a field is given by its name or by its position, which is not checked. -/
def member (d : Datum) : ReadM Member := do
  match ← d.form with
  | ("field", [c, name]) =>
    let name ← name.string
    match Member.field? (← c.cls) name with
    | some m => return m
    | none => throw (.unknown name)
  | ("fieldi", [c, i]) => return .field (← c.cls) (← i.natural)
  | ("prop", [p]) => return .property (← p.property)
  | ("static", [s]) => return .static (← s.static)
  | _ => malformed "a member"

/-! ## Values -/

def hexDigit? (c : Char) : Option Nat :=
  if c.isDigit then some (c.toNat - '0'.toNat)
  else if 'a' ≤ c ∧ c ≤ 'f' then some (c.toNat - 'a'.toNat + 10)
  else none

/-- A double as the hexadecimal digits of its bits, or the word for a number that is none. -/
def float (d : Datum) : ReadM Float := do
  let s ← d.string
  if s == "nan" then return Double.notANumber
  match s.toList.mapM hexDigit? with
  | some digits => return Float.ofBits (UInt64.ofNat (digits.foldl (fun n k => n * 16 + k) 0))
  | none => malformed "hexadecimal digits"

/-- A value. Every object and every array that is read is a new one. -/
def value : Datum → ReadM Value :=
  inward fun value d => do
    let word (k : IntKind) (n : Int) : Value := .int (.ofInt k n)
    let created (c : Datum) : ReadM Value := do
      let c ← c.cls
      let fields ← many value (d "fields")
      allocate fun h => h.newInstance c fields
    match d with
    | .null => return .null
    | .record fields =>
      match fields.find? fun (key, _) => key != "fields" && key != "items" with
      | some ("bool", v) => return .bool (← v.boolean)
      | some ("i32", v) => return word .i32 (← v.integer)
      | some ("u32", v) => return word .u32 (← v.integer)
      | some ("i64", v) => return word .i64 (← v.decimal)
      | some ("u64", v) => return word .u64 (← v.decimal)
      | some ("f64", v) => return .f64 (← v.float)
      | some ("str", v) => return .str (← v.string)
      | some ("type", v) => return .token (← v.ty)
      | some ("obj", c) => created c
      | some ("struct", c) => created c
      | some ("array", t) =>
        let elem ← t.ty
        let items ← many value (d "items")
        allocate fun h => h.newArray elem items.toArray
      | some ("delegate", v) => v.named (·.delegates)
      | some ("let", v) => v.valueName
      | _ => malformed "a value"
    | _ => malformed "a value"

def values : Datum → ReadM (List Value) :=
  many value

end ExprCompiler.Datum
