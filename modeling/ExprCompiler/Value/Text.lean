/-
The text of values: the plain form used by concatenation and uncaught exceptions, and the listing
form used in messages, journals and listings.
-/
import ExprCompiler.Exception.Class
import ExprCompiler.Heap

namespace ExprCompiler

def FrameVar.text : FrameVar → String
  | .arg i => s!"arg {i}"
  | .localVar i => s!"local {i}"
  | .closure i => s!"closure {i}"

/-- The text of an address. -/
def Place.text : Place FrameVar → String
  | .root var => var.text
  | .element _ i => s!"element {i}"
  | .objectField o i => o.cls.name ++ "." ++ toString i
  | .field inner i => inner.text ++ "." ++ toString i

namespace Value

mutual

/-- The plain text, given the text of a value found in the heap. -/
def textWith (found : Value → String) (h : Heap) : Value → String
  | .null => "null"
  | .bool b => toString b
  | .int w => toString w.value
  | .f64 x => Double.text x
  | .str s => s
  | .token ty => "type " ++ ty.text
  | .object o =>
    if o.cls.derivesFrom Class.exception then
      o.cls.name ++ ": " ++ found ((h.fields o)[0]?.getD .null)
    else "<" ++ o.cls.name ++ " object>"
  | .struct c fs =>
    c.name ++ " \x7b" ++ ",".intercalate (fieldTexts found h (c.fields.map Field.name) fs) ++ " \x7d"
  | .array a => Text.bracketed ((h.items a).toList.map found)
  | .func _ => "<function>"
  | .code unit => "<code " ++ unit.name ++ ">"
  | .closure _ => "<closure>"
  | .addr _ => "<address>"

/-- The declared fields of a struct, each with its name. -/
def fieldTexts (found : Value → String) (h : Heap) (names : List String) : List Value → List String
  | [] => []
  | v :: vs =>
    match names with
    | [] => []
    | name :: names => (" " ++ name ++ ": " ++ v.textWith found h) :: fieldTexts found h names vs

end

/-- The plain text of a value, following at most `depth` references into the heap. -/
def textAt (h : Heap) : Nat → Value → String
  | 0 => textWith (fun _ => "") h
  | depth + 1 => textWith (textAt h depth) h

/-- The plain text of a value. A chain of references without repetition is no longer than the
heap. -/
def text (h : Heap) (v : Value) : String :=
  v.textAt h (h.objects.size + h.arrays.size)

/-- The listing form of a value. -/
def describe (h : Heap) : Value → String
  | .null => "Null"
  | .bool b => "Bool(" ++ toString b ++ ")"
  | .int w => w.kind.tag ++ "(" ++ toString w.value ++ ")"
  | .f64 x => "F64(" ++ Double.text x ++ ")"
  | .str s => "Str(" ++ Text.quote s ++ ")"
  | .addr a => "Addr(" ++ a.text ++ ")"
  | v => v.text h

end Value

end ExprCompiler
