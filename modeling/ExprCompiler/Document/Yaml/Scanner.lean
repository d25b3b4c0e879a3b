/-
The scanner of YAML texts: properties of nodes, directives, and the loop that takes one token after
another.
-/
import ExprCompiler.Document.Yaml.Scalar

namespace ExprCompiler.Yaml

/-! ## Properties and directives -/

/-- The name of an anchor or an alias, after its mark. -/
def anchorName : ScanM String := do
  discard take
  let name ← takeWhile isWord
  if name.isEmpty then failure
  unless (← isEndAt 0) || (← isAt 0 fun c => c ∈ "?:,]\x7d%@`".toList) do failure
  return String.ofList name

/-- The characters of a tag; lists and commas only where nothing else can end it. -/
def isTagChar (long : Bool) (c : Char) : Bool :=
  isWord c || c ∈ ";/?:@&=+$.!~*'()%".toList || (long && c ∈ ",[]".toList)

def tagUri (long : Bool) : ScanM Tag := do
  let uri ← takeWhile (isTagChar long)
  if uri.isEmpty then failure
  Tag.ofChars? uri

/-- A tag handle: a word between exclamation marks, of which the second may be absent. -/
def tagHandle : ScanM (List Char) := do
  unless ← isAt 0 (· == '!') do failure
  discard take
  let word ← takeWhile isWord
  if ← isAt 0 (· == '!') then
    discard take
    return '!' :: word ++ ['!']
  else return '!' :: word

def tag : ScanM Unit := do
  let t ← do
    if ← isAt 1 (· == '<') then
      takeMany 2
      let uri ← tagUri true
      unless ← isAt 0 (· == '>') do failure
      discard take
      pure (Token.tag "" uri)
    else
      let handle ← tagHandle
      if 2 ≤ handle.length ∧ handle.getLast? = some '!' then
        pure (.tag (String.ofList handle) (← tagUri false))
      else
        let suffix ← Tag.ofChars? (handle.drop 1 ++ (← takeWhile (isTagChar false)))
        pure (if suffix.isEmpty then .tag "" (Tag.ofString "!") else .tag "!" suffix)
  unless (← isEndAt 0) || ((← get).flow ≠ 0 && (← isAt 0 (· == ','))) do failure
  push t

def number : ScanM Nat := do
  let digits ← takeWhile Char.isDigit
  if digits.isEmpty ∨ 9 < digits.length then failure
  return digits.foldl (fun n c => n * 10 + (c.toNat - '0'.toNat)) 0

def directive : ScanM Unit := do
  discard take
  let name ← takeWhile isWord
  unless ← isEndAt 0 do failure
  skipBlanks
  if name = "YAML".toList then
    let major ← number
    unless ← isAt 0 (· == '.') do failure
    discard take
    push (.version major (← number))
  else if name = "TAG".toList then
    let handle ← tagHandle
    unless handle.getLast? = some '!' do failure
    unless ← isAt 0 isBlank do failure
    skipBlanks
    let expansion ← tagUri true
    unless ← isEndAt 0 do failure
    push (.tagHandle (String.ofList handle) expansion)
  else failure
  skipComment

/-! ## The scanner -/

/-- White space, comments and breaks between tokens. A tab may not stand where an indent could. A
mark of the byte order may begin a line, but it takes a column. -/
def skipGap : Nat → ScanM Unit
  | 0 => pure ()
  | fuel + 1 => do
    if (← get).column = 0 ∧ (← peek) = some '\ufeff' then discard take
    let s ← get
    discard (takeWhile fun c => c == ' ' || ((s.flow ≠ 0 || !s.keyAllowed) && c == '\t'))
    if ← isAt 0 (· == '#') then skipLine
    if ← isAt 0 isBreak then
      discard takeBreak
      if (← get).flow = 0 then allowKey true
      skipGap fuel

/-- A mark at the start of a document or at its end. -/
def documentMark (t : Token) : ScanM Unit := do
  unroll (-1)
  dropKey
  allowKey false
  takeMany 3
  push t

def openFlow (t : Token) : ScanM Unit := do
  saveKey
  modify fun s => { s with flow := s.flow + 1, keys := none :: s.keys }
  allowKey true
  discard take
  push t

def closeFlow (t : Token) : ScanM Unit := do
  dropKey
  modify fun s =>
    if s.flow = 0 then s else { s with flow := s.flow - 1, keys := s.keys.drop 1 }
  allowKey false
  discard take
  push t

/-- A mark that begins an entry or a key where no key has been seen. -/
def blockMark (opener t : Token) : ScanM Unit := do
  let s ← get
  if s.flow = 0 then
    unless s.keyAllowed do failure
    roll s.column s.tokens.size opener
  dropKey
  allowKey (s.flow = 0 || t = .blockEntry)
  discard take
  push t

/-- A colon: what precedes it was a key if a key may have begun there. -/
def valueMark : ScanM Unit := do
  match (← get).keys.head? with
  | some (some k) =>
    pushAt k.position .key
    roll k.column k.position .blockMappingStart
    setKey none
    allowKey false
  | _ =>
    let s ← get
    if s.flow = 0 then
      unless s.keyAllowed do failure
      roll s.column s.tokens.size .blockMappingStart
    allowKey (s.flow = 0)
  discard take
  push .value

/-- Remembers a possible key and scans a token after which no key may begin. -/
def keyed (scan : ScanM Unit) : ScanM Unit := do
  saveKey
  allowKey false
  scan

/-- Characters that cannot begin a plain scalar. -/
def isIndicator (c : Char) : Bool :=
  c ∈ "-?:,[]\x7b\x7d#&*!|>'\"%@`".toList

/-- Scans one token, which begins with the given character. The fuel is for its characters. -/
def scanToken (fuel : Nat) (c : Char) : ScanM Unit := do
  let s ← get
  let flow := s.flow ≠ 0
  let spaced ← isEndAt 1
  if s.column = 0 ∧ c = '%' then
    unroll (-1)
    dropKey
    allowKey false
    directive
  else if ← isDocumentMark '-' then documentMark .documentStart
  else if ← isDocumentMark '.' then documentMark .documentEnd
  else match c with
    | '[' => openFlow .flowSequenceStart
    | '\x7b' => openFlow .flowMappingStart
    | ']' => closeFlow .flowSequenceEnd
    | '\x7d' => closeFlow .flowMappingEnd
    | ',' =>
      dropKey
      allowKey true
      discard take
      push .flowEntry
    | '*' => keyed do push (.alias (← anchorName))
    | '&' => keyed do push (.anchor (← anchorName))
    | '!' => keyed tag
    | '\'' => keyed (quotedScalar false fuel)
    | '"' => keyed (quotedScalar true fuel)
    | _ =>
      if c = '-' ∧ spaced then blockMark .blockSequenceStart .blockEntry
      else if c = '?' ∧ (flow ∨ spaced) then blockMark .blockMappingStart .key
      else if c = ':' ∧ (flow ∨ spaced) then valueMark
      else if (c = '|' ∨ c = '>') ∧ !flow then
        dropKey
        allowKey true
        blockScalar (c = '|') fuel
      else if !(isIndicator c || isBlank c) || (c = '-' && !(← isAt 1 isBlank)) ||
          (!flow && (c = '?' || c = ':') && !spaced) then
        keyed (plainScalar fuel)
      else failure

/-- Scans to the end of the text. The fuel exceeds the number of characters that are left, which is
enough for every loop. -/
def scanAll : Nat → ScanM Unit
  | 0 => failure
  | fuel + 1 => do
    skipGap (fuel + 1)
    dropStaleKeys
    unroll (← get).column
    match ← peek with
    | none =>
      unroll (-1)
      dropKey
    | some c =>
      scanToken (fuel + 1) c
      scanAll fuel

/-- The tokens of a text. -/
def tokens? (s : String) : Option (List Token) :=
  let cs := s.toList
  if cs.all isAllowed then
    match (scanAll (cs.length + 1)).run { rest := cs } with
    | some (_, s) => some s.tokens.toList
    | none => none
  else none

end ExprCompiler.Yaml
