/-
Settings read from documents. What a document does not say keeps its default, and keys that no
setting has are ignored.
-/
import ExprCompiler.Document.Toml
import ExprCompiler.Document.Yaml
import ExprCompiler.Settings

namespace ExprCompiler

/-- The notations for settings. -/
inductive Format
  | toml
  | yaml
deriving DecidableEq, Repr, Inhabited

inductive SettingsError
  /-- There is no such file. -/
  | missing
  /-- The text breaks the grammar, or a setting has a value of the wrong kind. -/
  | malformed (format : Format)
  | limitTooLarge (limit : Nat)
deriving DecidableEq, Repr, Inhabited

/-- What is reported of a limit above the largest record. -/
def SettingsError.limitMessage (limit : Nat) : String :=
  s!"Invalid configuration: closure.fixed_field_limit must be at most {Layout.maxFields}, got {limit}"

namespace Document

/-- The values of the named fields of a record; an absent field has none. In one of the notations a
record may also be written as the list of its fields. -/
def fields? (format : Format) (c : Content) (names : List String) (d : Document) :
    Option (List (Option Document)) :=
  match d.untagged with
  | .blank | .moment => some (names.map fun _ => none)
  | .table entries =>
    let entries := entries.map fun (key, d) => (c.follow key, c.follow d)
    if entries.any fun (key, _) => key.isCompound then none
    else names.mapM fun name =>
      match entries.filter fun (key, _) => key.isText name with
      | [] => some none
      | [(_, d)] => some (some d)
      | _ => none
  | .list items =>
    match format with
    | .toml => some ((List.range names.length).map fun i => items[i]?)
    | .yaml => none
  | _ => none

def natural? (d : Document) : Option Nat :=
  match d.untagged with
  | .integer (.ofNat n) => some n
  | _ => none

def boolean? (d : Document) : Option Bool :=
  match d.untagged with
  | .boolean b => some b
  | _ => none

/-- Whether nothing is said beside the name of a variant. -/
def isEmpty : Document → Bool
  | .blank | .null | .list [] | .table [] => true
  | _ => false

/-- A level by its name, which may also be the mark of an empty value or the only key of a table
with an empty value. -/
def assurance? (format : Format) : Document → Option Assurance
  | .text s => Assurance.names.lookup s
  | .tagged name .blank | .tagged name .null => Assurance.names.lookup name
  | .table [(.text name, d)] =>
    if format = .toml ∧ d.isEmpty then Assurance.names.lookup name else none
  | _ => none

/-- The value of a field: its default if it is absent, and nothing if it is of the wrong kind. -/
def orDefault {α : Type} (default : α) (read : Document → Option α) : Option Document → Option α
  | some d => read d
  | none => some default

end Document

namespace Content

open Document

/-- The settings that a content describes. -/
def settings? (format : Format) (c : Content) : Option Settings := do
  let s : Settings := {}
  let group (names : List String) (d : Option Document) : Option (List (Option Document)) :=
    fields? format c names (d.getD .blank)
  match ← fields? format c ["environment_mode", "closure", "native", "fallback"] c.root with
  | [mode, closure, native, fallback] =>
    let assurance ← orDefault s.assurance (assurance? format) mode
    let closure ← group ["fixed_field_limit"] closure
    let native ← group ["enabled", "max_instructions"] native
    let fallback ← group ["enabled"] fallback
    return {
      assurance
      fixedFieldLimit := ← orDefault s.fixedFieldLimit natural? (closure[0]?.getD none)
      nativeEnabled := ← orDefault s.nativeEnabled boolean? (native[0]?.getD none)
      maxNativeInstructions :=
        ← orDefault s.maxNativeInstructions natural? (native[1]?.getD none)
      fallbackEnabled := ← orDefault s.fallbackEnabled boolean? (fallback[0]?.getD none) }
  | _ => none

end Content

/-- The content of a text. -/
def Format.content? : Format → String → Option Content
  | .toml => Toml.content?
  | .yaml => Yaml.content?

/-- The settings in a text; without a text, there is no file to read. -/
def Settings.load (format : Format) : Option String → Except SettingsError Settings
  | none => .error .missing
  | some text =>
    match (format.content? text).bind (Content.settings? format) with
    | none => .error (.malformed format)
    | some s =>
      if Layout.maxFields < s.fixedFieldLimit then .error (.limitTooLarge s.fixedFieldLimit)
      else .ok s

end ExprCompiler
