/-
Events as coloured lines. A line is made from named fields, of which any may be missing.
-/
import ExprCompiler.Event
import ExprCompiler.Text.Lower

namespace ExprCompiler

namespace Console

/-! ## Colours -/

inductive Colour
  | yellow | white | brightBlack | brightRed | brightGreen | brightYellow | brightBlue
  | brightMagenta | brightCyan
deriving DecidableEq

def Colour.code : Colour → Nat
  | .yellow => 33
  | .white => 37
  | .brightBlack => 90
  | .brightRed => 91
  | .brightGreen => 92
  | .brightYellow => 93
  | .brightBlue => 94
  | .brightMagenta => 95
  | .brightCyan => 96

/-- Text in a colour; afterwards the colour is the default one again. -/
def paint (c : Colour) (s : String) : String :=
  s!"\x1b[{c.code}m" ++ s ++ "\x1b[39m"

/-- Text in bold; afterwards all attributes are reset. -/
def bold (s : String) : String :=
  "\x1b[1m" ++ s ++ "\x1b[0m"

/-- A number with a comma between groups of three digits. -/
def grouped (n : Nat) : String :=
  let digits := (toString n).toList
  let rec go : List Char → List Char
    | [] => []
    | d :: rest =>
      if rest.length % 3 = 0 ∧ rest ≠ [] then d :: ',' :: go rest else d :: go rest
  String.ofList (go digits)

/-! ## Fields -/

/-- The fields of an event as they are recorded. -/
structure Fields where
  event : Option String := none
  unit : Option String := none
  reason : Option String := none
  closure : Option String := none
  stage : Option String := none
  error : Option String := none
  arity : Option Nat := none
  items : Option Nat := none
  instructions : Option Nat := none

/-- How the texts of an event's fields are recorded. -/
inductive Recording
  /-- In their listing form, without the quotes around it. -/
  | listed
  /-- As they are; the closure and the stage have no such form. -/
  | plain
deriving DecidableEq

/-- A text without the quotes at its ends. -/
def trimQuotes (s : String) : String :=
  let front := s.toList.dropWhile (· == '"')
  String.ofList (front.reverse.dropWhile (· == '"')).reverse

/-- The fields as a recording leaves them. -/
def Fields.recorded (how : Recording) (f : Fields) : Fields :=
  match how with
  | .listed =>
    let list (s : Option String) := s.map fun s => trimQuotes (Text.quote s)
    { f with
      event := list f.event
      unit := list f.unit
      reason := list f.reason
      closure := list f.closure
      stage := list f.stage
      error := list f.error }
  | .plain => { f with closure := none, stage := none }

/-- The fields that an event records. Texts of reasons and problems lose the quotes at their
ends. -/
def Fields.ofEvent (h : Heap) : Event → Fields
  | .stage unit stage =>
    { event := some "stage", unit := some unit, stage := some stage.name }
  | .declined unit reason =>
    { event := some "decline", unit := some unit, reason := some (trimQuotes reason.message) }
  | .nativeInstalled unit n =>
    { event := some "native_install", unit := some unit, instructions := some n }
  | .nativeSkipped unit reason =>
    { event := some "native_skip", unit := some unit, reason := some reason.text }
  | .nativeFailed unit problem =>
    { event := some "native_failed", unit := some unit,
      error := some (trimQuotes ("codegen: " ++ problem.message h)) }
  | .compiled unit arity strategy items n =>
    { event := some "compile", unit := some unit, arity := some arity
      closure := some (match strategy with | some s => "Some(" ++ s.name ++ ")" | none => "None")
      items := some items, instructions := some n }
  | .fallback reason =>
    { event := some "fallback", reason := some (trimQuotes reason.message) }

/-! ## Lines -/

/-- A list without up to `n` copies of another at its front. -/
def dropCopies (front : List Char) : Nat → List Char → List Char
  | 0, s => s
  | n + 1, s => if front.isPrefixOf s then dropCopies front n (s.drop front.length) else s

/-- How a closure's strategy is shown. -/
def strategyText : Option String → String
  | none | some "None" => "bare"
  | some s =>
    let inner := dropCopies "Some(".toList s.length s.toList
    Text.lower (String.ofList (inner.reverse.dropWhile (· == ')')).reverse)

/-- The time since the start, which is not followed. -/
def elapsed : String :=
  paint .brightBlack "  0.000s"

/-- The line of an event, if it has one. -/
def line? (f : Fields) (level : Level) : Option String :=
  let unit := f.unit.getD "?"
  let count := grouped (f.instructions.getD 0)
  match f.event.getD "" with
  | "compile" =>
    let captured := match f.items.getD 0 with
      | 0 => ""
      | n => " │ " ++ paint .brightYellow (toString n) ++ " captured"
    some (elapsed ++ " " ++ bold (paint .brightGreen "▶") ++ " " ++ bold (paint .white unit) ++
      " │ arity " ++ paint .brightYellow (toString (f.arity.getD 0)) ++ " │ " ++
      paint .brightYellow count ++ " instructions │ " ++
      paint .brightMagenta (strategyText f.closure) ++ captured)
  | "native_install" =>
    some (elapsed ++ " " ++ paint .brightCyan "⚡" ++ " " ++ bold (paint .white unit) ++
      " native │ " ++ bold (paint .brightMagenta count) ++ " instructions")
  | "native_skip" =>
    some (elapsed ++ " " ++ paint .brightBlack "·" ++ " " ++ paint .brightBlack unit ++
      " stays on the VM │ " ++ paint .brightBlack (f.reason.getD "unsupported"))
  | "native_failed" =>
    some (elapsed ++ " " ++ paint .brightRed "✗" ++ " " ++ bold (paint .white unit) ++
      " native lowering failed │ " ++ paint .brightRed (f.error.getD "unknown error"))
  | "decline" =>
    some (elapsed ++ " " ++ bold (paint .yellow "■") ++ " " ++ bold (paint .white unit) ++
      " declined │ " ++ paint .yellow (f.reason.getD "unknown reason"))
  | "fallback" =>
    some (elapsed ++ " " ++ paint .brightBlue "↺" ++ " Interpreting │ " ++
      paint .yellow (f.reason.getD "unknown reason"))
  | "stage" =>
    if level = .trace then
      some (elapsed ++ " " ++ paint .brightBlack "·" ++ " " ++ paint .brightBlack unit ++ " │ " ++
        paint .brightBlack (f.stage.getD "?"))
    else none
  | _ => none

/-- The printed lines of an event; a text with line feeds takes several. -/
def lines (f : Fields) (level : Level) : List String :=
  match line? f level with
  | some s => s.splitOn "\n"
  | none => []

/-- The printed lines of the events up to a level of detail. -/
def transcript (h : Heap) (level : Level) (events : List Event) : List String :=
  (events.filter fun e => e.level.rank ≤ level.rank).flatMap fun e =>
    lines (Fields.ofEvent h e) e.level

end Console

end ExprCompiler
