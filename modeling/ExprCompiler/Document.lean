/-
Documents: what a text in a notation for settings says, with the scalars read as the values that
settings have. A part of a document may be referred to from elsewhere in it, also from inside of
itself, so references stay numbers and are followed where a setting is read.
-/
namespace ExprCompiler

inductive Document
  | text (s : String)
  | integer (n : Int)
  | boolean (b : Bool)
  /-- Nothing is written where a value could be. -/
  | blank
  /-- A word for no value. -/
  | null
  /-- A date or a time of day, which is a record without any setting in it. -/
  | moment
  /-- A scalar of a kind that no setting has, such as a fraction. -/
  | other
  | list (items : List Document)
  | table (entries : List (Document × Document))
  /-- A value marked with the name of a variant. -/
  | tagged (tag : String) (d : Document)
  /-- The part with a number. -/
  | reference (n : Nat)
deriving Inhabited

namespace Document

/-- The value without its mark. -/
def untagged : Document → Document
  | .tagged _ d => d
  | d => d

def isCompound (d : Document) : Bool :=
  match d.untagged with
  | .list _ | .table _ => true
  | _ => false

/-- Whether the value is this text. -/
def isText (d : Document) (s : String) : Bool :=
  match d.untagged with
  | .text t => t == s
  | _ => false

end Document

/-- What a whole text says: a document and the parts of it that are referred to. -/
structure Content where
  root : Document
  parts : List (Nat × Document) := []

/-- What a document stands for: a reference stands for its part. No part is a reference. -/
def Content.follow (c : Content) : Document → Document
  | .reference n => (c.parts.lookup n).getD .other
  | d => d

end ExprCompiler
