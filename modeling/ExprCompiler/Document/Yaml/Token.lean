/-
The tokens of YAML texts, and the state of the scanner that finds them. Indentation opens and closes
blocks, so the scanner keeps a stack of indents; and a key is known only by the colon after it, so
the scanner remembers where a key may have begun and puts the tokens for it there.
-/
import ExprCompiler.Document.Yaml.Tag

namespace ExprCompiler.Yaml

/-- How a scalar is written. -/
inductive Style
  | plain | quoted | literal | folded
deriving DecidableEq, Repr, Inhabited

inductive Token
  | version (major minor : Nat)
  | tagHandle (handle : String) (expansion : Tag)
  | documentStart
  | documentEnd
  | blockSequenceStart
  | blockMappingStart
  | blockEnd
  | flowSequenceStart
  | flowSequenceEnd
  | flowMappingStart
  | flowMappingEnd
  | blockEntry
  | flowEntry
  | key
  | value
  | alias (name : String)
  | anchor (name : String)
  | tag (handle : String) (suffix : Tag)
  | scalar (text : String) (style : Style)
deriving DecidableEq, Repr, Inhabited

/-- A place where a key may have begun. A required one must turn out to be a key. -/
structure PossibleKey where
  required : Bool
  /-- The number of tokens before it. -/
  position : Nat
  index : Nat
  line : Nat
  column : Nat

/-- Where the scanner stands: bytes count for the index and characters for the column. -/
structure Scanner where
  rest : List Char
  index : Nat := 0
  line : Nat := 0
  column : Nat := 0
  /-- How many brackets and braces are open. -/
  flow : Nat := 0
  indent : Int := -1
  /-- The indents of the outer blocks. -/
  indents : List Int := []
  keyAllowed : Bool := true
  /-- One place for the block level and each open bracket, the innermost first. -/
  keys : List (Option PossibleKey) := [none]
  tokens : Array Token := #[]

abbrev ScanM := StateT Scanner Option

/-! ## Characters -/

def isBlank (c : Char) : Bool :=
  c == ' ' || c == '\t'

def isBreak (c : Char) : Bool :=
  c == '\n' || c == '\r' || c == '\x85' || c == '\u2028' || c == '\u2029'

/-- Characters of names. -/
def isWord (c : Char) : Bool :=
  c.isAlphanum || c == '_' || c == '-'

/-- Characters that a text may hold. -/
def isAllowed (c : Char) : Bool :=
  c == '\t' || c == '\n' || c == '\r' || (' ' ≤ c && c ≤ '~') || c == '\x85' ||
    ('\xa0' ≤ c && c ≤ '\ufffd') || 0x10000 ≤ c.toNat

def charAt (n : Nat) : ScanM (Option Char) :=
  return (← get).rest[n]?

def peek : ScanM (Option Char) :=
  charAt 0

def isAt (n : Nat) (p : Char → Bool) : ScanM Bool :=
  return ((← charAt n).map p).getD false

/-- Whether a blank, a break or the end of the text is there. -/
def isEndAt (n : Nat) : ScanM Bool :=
  return ((← charAt n).map fun c => isBlank c || isBreak c).getD true

/-- Whether a break or the end of the text comes next. -/
def isLineEnd : ScanM Bool :=
  return ((← peek).map isBreak).getD true

/-- Takes a character that is no break. -/
def take : ScanM Char := do
  let s ← get
  match s.rest with
  | c :: rest =>
    set { s with rest, index := s.index + c.utf8Size, column := s.column + 1 }
    return c
  | [] => failure

def takeMany (count : Nat) : ScanM Unit :=
  (List.range count).forM fun _ => discard take

/-- Takes a break; all kinds but two stand for a line feed. -/
def takeBreak : ScanM Char := do
  let s ← get
  let ended (rest : List Char) (width : Nat) : Scanner :=
    { s with rest, index := s.index + width, line := s.line + 1, column := 0 }
  match s.rest with
  | '\r' :: '\n' :: rest =>
    set (ended rest 2)
    return '\n'
  | c :: rest =>
    set (ended rest c.utf8Size)
    return if c == '\u2028' || c == '\u2029' then c else '\n'
  | [] => failure

/-- Takes characters that are no breaks and come next. -/
def pass (word : List Char) : ScanM Unit :=
  modify fun s =>
    { s with
      rest := s.rest.drop word.length
      index := word.foldl (fun n c => n + c.utf8Size) s.index
      column := s.column + word.length }

/-- Takes characters that are no breaks as long as they have a property. -/
def takeWhile (p : Char → Bool) : ScanM (List Char) := do
  let word := (← get).rest.takeWhile p
  pass word
  return word

def skipBlanks : ScanM Unit :=
  discard (takeWhile isBlank)

def skipLine : ScanM Unit :=
  discard (takeWhile fun c => !isBreak c)

/-- The rest of a line that may hold only a comment. -/
def skipComment : ScanM Unit := do
  skipBlanks
  if ← isAt 0 (· == '#') then skipLine
  unless ← isLineEnd do failure
  if (← peek).isSome then discard takeBreak

/-- Whether the line begins with three marks of a document. -/
def isDocumentMark (mark : Char) : ScanM Bool := do
  let s ← get
  return s.column == 0 && s.rest.take 3 == [mark, mark, mark] && (← isEndAt 3)

def isDocumentBoundary : ScanM Bool := do
  return (← isDocumentMark '-') || (← isDocumentMark '.')

/-! ## Tokens and indents -/

def push (t : Token) : ScanM Unit :=
  modify fun s => { s with tokens := s.tokens.push t }

/-- Puts a token before those that follow a position. -/
def pushAt (position : Nat) (t : Token) : ScanM Unit :=
  modify fun s =>
    { s with tokens := (s.tokens.take position).push t ++ s.tokens.drop position }

/-- Opens a block at a column, if it is deeper than the current one. -/
def roll (column : Nat) (position : Nat) (t : Token) : ScanM Unit := do
  let s ← get
  if s.flow = 0 ∧ s.indent < column then
    set { s with indents := s.indent :: s.indents, indent := column }
    pushAt position t

/-- Closes the blocks that are deeper than a column. -/
def unroll (column : Int) : ScanM Unit := do
  let rec go : List Int → ScanM Unit
    | [] => pure ()
    | outer :: rest => do
      if column < (← get).indent then
        push .blockEnd
        modify fun s => { s with indent := outer, indents := rest }
        go rest
  if (← get).flow = 0 then go (← get).indents

/-! ## Possible keys -/

def setKey (k : Option PossibleKey) : ScanM Unit :=
  modify fun s => { s with keys := k :: s.keys.drop 1 }

/-- Gives up the possible key of this level. -/
def dropKey : ScanM Unit := do
  if let some (some k) := (← get).keys.head? then
    if k.required then failure
  setKey none

/-- Remembers that a key may begin here. -/
def saveKey : ScanM Unit := do
  let s ← get
  if s.keyAllowed then
    dropKey
    setKey (some ⟨s.flow == 0 && s.indent == s.column, s.tokens.size, s.index, s.line, s.column⟩)

/-- A key must be on one line and not too long. -/
def dropStaleKeys : ScanM Unit := do
  let s ← get
  let keys ← s.keys.mapM fun
    | none => some none
    | some k =>
      if k.line < s.line ∨ k.index + 1024 < s.index then if k.required then none else some none
      else some (some k)
  set { s with keys }

def allowKey (allowed : Bool) : ScanM Unit :=
  modify fun s => { s with keyAllowed := allowed }

end ExprCompiler.Yaml
