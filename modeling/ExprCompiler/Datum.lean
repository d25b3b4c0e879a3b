/-
The data in which programs are written: null, booleans, integers, texts, lists and records. A
compound form is a list whose first item is a text, its head.
-/
namespace ExprCompiler

inductive Datum
  | null
  | bool (b : Bool)
  | int (n : Int)
  | text (s : String)
  | list (items : List Datum)
  | record (fields : List (String × Datum))
deriving Inhabited

namespace Datum

mutual

/-- How deep lists and records are nested. -/
def depth : Datum → Nat
  | .list items => depthOfItems items 0 + 1
  | .record fields => depthOfFields fields 0 + 1
  | _ => 0

def depthOfItems : List Datum → Nat → Nat
  | [], deepest => deepest
  | d :: rest, deepest => depthOfItems rest (max deepest d.depth)

def depthOfFields : List (String × Datum) → Nat → Nat
  | [], deepest => deepest
  | (_, d) :: rest, deepest => depthOfFields rest (max deepest d.depth)

end

/-- A field of a record; an absent field is null. -/
def field (d : Datum) (key : String) : Datum :=
  match d with
  | .record fields => (fields.lookup key).getD .null
  | _ => .null

/-- A record stands for the function from its keys. -/
instance : CoeFun Datum fun _ => String → Datum := ⟨field⟩

/-- Whether the datum is this text. -/
def isText (d : Datum) (s : String) : Bool :=
  match d with
  | .text t => t == s
  | _ => false

end Datum

end ExprCompiler
