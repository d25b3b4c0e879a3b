/-
The scalars of YAML texts: plain ones, quoted ones, and blocks that keep or fold their line breaks.
-/
import ExprCompiler.Document.Yaml.Token

namespace ExprCompiler.Yaml

/-! ## Folding -/

/-- White space inside a scalar: blanks on one line, or breaks with the first kept apart. Here and
below, characters that are gathered stand last first. -/
structure Gap where
  blanks : List Char := []
  first : List Char := []
  more : List Char := []
  /-- A break has been met. -/
  broken : Bool := false

/-- What a gap stands for: a single line feed is a space, and further ones stay. -/
def Gap.fold (g : Gap) : List Char :=
  if g.broken then
    if g.first = ['\n'] then if g.more.isEmpty then [' '] else g.more else g.more ++ g.first
  else g.blanks

/-- Takes blanks and breaks. Below the given column, a tab may not begin a line. -/
def takeGap (column : Int) : Nat → Gap → ScanM Gap
  | 0, g => return g
  | fuel + 1, g => do
    match ← peek with
    | some c =>
      if isBlank c then
        if g.broken ∧ c = '\t' ∧ (← get).column < column then failure
        discard take
        takeGap column fuel (if g.broken then g else { g with blanks := c :: g.blanks })
      else if isBreak c then
        let b ← takeBreak
        takeGap column fuel <|
          if g.broken then { g with more := b :: g.more }
          else { g with blanks := [], first := [b], broken := true }
      else return g
    | none => return g

/-! ## Scalars -/

/-- Characters that end a plain scalar inside brackets. -/
def isFlowMark (c : Char) : Bool :=
  c == ',' || c == '[' || c == ']' || c == '\x7b' || c == '\x7d'

/-- The characters of a plain scalar up to white space or a mark that ends it. Inside brackets, a
colon right before such a mark is refused. -/
def plainWord? (flow : Bool) : List Char → Option (List Char)
  | [] => some []
  | c :: rest =>
    let before (p : Char → Bool) : Bool := rest.head?.any p
    if isBlank c || isBreak c || (flow && isFlowMark c) then some []
    else if c = ':' && (rest.isEmpty || before isBlank || before isBreak) then some []
    else if c = ':' && flow && before (fun d => d == '?' || isFlowMark d) then none
    else (plainWord? flow rest).map (c :: ·)

/-- A plain scalar, as its text and whether it ended after a break. -/
def plainText (indent : Int) : Nat → List Char → Gap → ScanM (List Char × Bool)
  | 0, text, g => return (text, g.broken)
  | fuel + 1, text, g => do
    if (← isDocumentBoundary) || (← isAt 0 (· == '#')) then return (text, g.broken)
    let word ← plainWord? ((← get).flow ≠ 0) (← get).rest
    pass word
    let (text, g) := if word.isEmpty then (text, g) else (word.reverse ++ (g.fold ++ text), {})
    if !(← isAt 0 fun c => isBlank c || isBreak c) then return (text, g.broken)
    let g ← takeGap indent (fuel + 1) g
    if (← get).flow = 0 ∧ (← get).column < indent then return (text, g.broken)
    plainText indent fuel text g

/-- Adds a scalar whose characters stand last first. -/
def pushScalar (text : List Char) (style : Style) : ScanM Unit :=
  push (.scalar (String.ofList text.reverse) style)

def plainScalar (fuel : Nat) : ScanM Unit := do
  let (text, broken) ← plainText ((← get).indent + 1) fuel [] {}
  if broken then allowKey true
  pushScalar text .plain

/-- A character given by its number in that many hexadecimal digits. -/
def numbered (digits : Nat) : ScanM Char := do
  let word := (← get).rest.take digits
  if word.length ≠ digits then failure
  takeMany digits
  (Text.numberIn? 16 word).bind Text.charOf?

/-- The character of an escape, whose backslash has been taken. -/
def escape : ScanM Char := do
  match ← take with
  | '0' => return '\x00'
  | 'a' => return '\x07'
  | 'b' => return '\x08'
  | 't' | '\t' => return '\t'
  | 'n' => return '\n'
  | 'v' => return '\x0b'
  | 'f' => return '\x0c'
  | 'r' => return '\r'
  | 'e' => return '\x1b'
  | ' ' => return ' '
  | '"' => return '"'
  | '/' => return '/'
  | '\\' => return '\\'
  | 'N' => return '\x85'
  | '_' => return '\xa0'
  | 'L' => return '\u2028'
  | 'P' => return '\u2029'
  | 'x' => numbered 2
  | 'u' => numbered 4
  | 'U' => numbered 8
  | _ => failure

/-- Adds the characters of a quoted scalar up to white space or the closing quote to a text. The
flag tells whether an escaped break ended them. -/
def quotedWord (double : Bool) : Nat → List Char → ScanM (List Char × Bool)
  | 0, _ => failure
  | fuel + 1, text => do
    if ← isEndAt 0 then return (text, false)
    match ← peek, double with
    | some '\'', false =>
      if ← isAt 1 (· == '\'') then
        takeMany 2
        quotedWord double fuel ('\'' :: text)
      else return (text, false)
    | some '"', true => return (text, false)
    | some '\\', true =>
      discard take
      if ← isAt 0 isBreak then
        discard takeBreak
        return (text, true)
      else quotedWord double fuel ((← escape) :: text)
    | _, _ => quotedWord double fuel ((← take) :: text)

/-- The text of a quoted scalar, after the opening quote. -/
def quotedText (double : Bool) : Nat → List Char → ScanM (List Char)
  | 0, _ => failure
  | fuel + 1, text => do
    if (← isDocumentBoundary) || (← peek).isNone then failure
    let (text, broken) ← quotedWord double (fuel + 1) text
    if ← isAt 0 (· == if double then '"' else '\'') then
      discard take
      return text
    let g ← takeGap (-1) (fuel + 1) { broken }
    quotedText double fuel (g.fold ++ text)

def quotedScalar (double : Bool) (fuel : Nat) : ScanM Unit := do
  discard take
  pushScalar (← quotedText double fuel []) .quoted

/-- The line breaks before a line of a block scalar. The indent, if not known, is that of the first
line that is not empty. -/
def blockBreaks (indent : Option Nat) : Nat → Nat → List Char → ScanM (Nat × List Char)
  | 0, _, _ => failure
  | fuel + 1, deepest, breaks => do
    let within (column : Nat) : Bool := match indent with
      | some n => column < n
      | none => true
    let spaces := ((← get).rest.takeWhile (· == ' ')).length
    let column := (← get).column
    let room := match indent with
      | some n => n - column
      | none => spaces
    takeMany (min spaces room)
    let s ← get
    let deepest := max deepest s.column
    if within s.column && (← isAt 0 (· == '\t')) then failure
    if ← isAt 0 isBreak then
      blockBreaks indent fuel deepest ((← takeBreak) :: breaks)
    else
      let least : Nat := (max (s.indent + 1) 1).toNat
      return (indent.getD (max deepest least), breaks)

/-- The lines of a block scalar. `broken` is the break after the latest line, `breaks` those of the
empty lines after it. -/
def blockLines (literal : Bool) (indent : Nat) :
    Nat → List Char → List Char → List Char → Bool → ScanM (List Char × List Char × List Char)
  | 0, _, _, _, _ => failure
  | fuel + 1, text, broken, breaks, afterBlank => do
    if (← get).column ≠ indent ∨ (← peek).isNone then return (text, broken, breaks)
    let blank ← isAt 0 isBlank
    let joint :=
      if !literal && broken = ['\n'] && !afterBlank && !blank then
        if breaks.isEmpty then [' '] else []
      else broken
    let line ← takeWhile fun c => !isBreak c
    let broken ← if (← peek).isSome then pure [← takeBreak] else pure []
    let text := line.reverse ++ (breaks ++ (joint ++ text))
    let (_, breaks) ← blockBreaks (some indent) (fuel + 1) 0 []
    blockLines literal indent fuel text broken breaks blank

/-- What becomes of the breaks at the end of a block scalar. -/
inductive Chomping
  | strip | clip | keep
deriving DecidableEq

def chomping? : ScanM (Option Chomping) := do
  if ← isAt 0 (· == '+') then
    discard take
    return some .keep
  else if ← isAt 0 (· == '-') then
    discard take
    return some .strip
  else return none

def indentDigit? : ScanM (Option Nat) := do
  if ← isAt 0 Char.isDigit then
    let c ← take
    if c == '0' then failure
    return some (c.toNat - '0'.toNat)
  else return none

def blockScalar (literal : Bool) (fuel : Nat) : ScanM Unit := do
  discard take
  let before ← chomping?
  let digit ← indentDigit?
  let chomping ← if before.isSome then pure before else chomping?
  skipComment
  let outer := (← get).indent
  let indent := digit.map fun n => (max outer 0).toNat + n
  let (indent, breaks) ← blockBreaks indent fuel 0 []
  let (text, broken, breaks) ← blockLines literal indent fuel [] [] breaks false
  let text := match chomping.getD .clip with
    | .strip => text
    | .clip => broken ++ text
    | .keep => breaks ++ (broken ++ text)
  pushScalar text (if literal then .literal else .folded)

end ExprCompiler.Yaml
