/-
Documents written in YAML: the grammar over tokens, the meaning of scalars, and the parts that
anchors stand for.
-/
import ExprCompiler.Document
import ExprCompiler.Document.Yaml.Scanner

namespace ExprCompiler.Yaml

/-! ## Scalars -/

/-- A natural number of 64 bits. Leading zeros make it a text. -/
def natural? (text : String) : Option Nat := do
  let body := match text.toList with
    | '+' :: rest => rest
    | cs => cs
  let n ← match body with
    | '0' :: 'x' :: digits => Text.numberIn? 16 digits
    | '0' :: 'o' :: digits => Text.numberIn? 8 digits
    | '0' :: 'b' :: digits => Text.numberIn? 2 digits
    | '0' :: _ :: _ => none
    | digits => Text.numberIn? 10 digits
  if n < Nat.pow 2 64 then some n else none

def boolean? (text : String) : Option Bool :=
  if text ∈ ["true", "True", "TRUE"] then some true
  else if text ∈ ["false", "False", "FALSE"] then some false
  else none

def isNull (text : String) : Bool :=
  text ∈ ["null", "Null", "NULL", "~"]

/-- The meaning of a scalar. A plain one is what its text says, whatever its tag. A literal block is
more than a text only if its tag says so, and other scalars are texts. -/
def scalar (text : String) (style : Style) (tag : Option Tag) : Document :=
  let isPlain : Bool := style = .plain
  let is (t : Tag) : Bool := isPlain || (style = .literal && tag = some t)
  if isPlain && text.isEmpty then .blank
  else if isPlain && isNull text then .null
  else match boolean? text, natural? text with
    | some b, _ => if is .boolean then .boolean b else .text text
    | none, some n => if is .integer then .integer n else .text text
    | none, none => .text text

/-! ## Grammar -/

structure Parser where
  tokens : List Token
  handles : List (String × Tag) := []
  /-- The number that an anchor stands for now. -/
  anchors : List (String × Nat) := []
  /-- The parts that numbers stand for, each given by how many anchors were set before. A later part
  with a number takes the place of an earlier one. -/
  starts : List (Nat × Nat) := []
  /-- The parts that have been read. -/
  parts : List (Nat × Document) := []

abbrev ParseM := StateT Parser Option

def peekToken : ParseM (Option Token) :=
  return (← get).tokens.head?

def skip : ParseM Unit :=
  modify fun p => { p with tokens := p.tokens.drop 1 }

/-- Takes a token if it comes next. -/
def accept (t : Token) : ParseM Bool := do
  if (← peekToken) = some t then
    skip
    return true
  else return false

def expect (t : Token) : ParseM Unit := do
  unless ← accept t do failure

/-- Whether one of these tokens comes next. -/
def isNext (ts : List Token) : ParseM Bool := do
  match ← peekToken with
  | some t => return t ∈ ts
  | none => return false

/-- The full form of a tag. -/
def resolve (handle : String) (suffix : Tag) : ParseM Tag := do
  if handle.isEmpty then return suffix
  match (← get).handles.lookup handle with
  | some expansion => return expansion ++ suffix
  | none =>
    match handle with
    | "!" => return Tag.ofString "!" ++ suffix
    | "!!" => return Tag.standard ++ suffix
    | _ => failure

/-- The anchor and the tag before a node, in either order. -/
def properties : ParseM (Option String × Option Tag) := do
  let anchor? : ParseM (Option String) := do
    match ← peekToken with
    | some (.anchor name) =>
      skip
      return some name
    | _ => return none
  let tag? : ParseM (Option Tag) := do
    match ← peekToken with
    | some (.tag handle suffix) =>
      skip
      return some (← resolve handle suffix)
    | _ => return none
  let anchor ← anchor?
  let tag ← tag?
  let anchor ← if anchor.isSome then pure anchor else anchor?
  return (anchor, tag)

/-- Lets an anchor stand for the part that starts here, and gives that part. Its number is how many
names are in use already, so an anchor that is set again shares its number with the next new one. -/
def setAnchor (name : String) : ParseM Nat :=
  modifyGet fun p =>
    let n := p.anchors.length
    let start := p.starts.length
    (start, { p with
      anchors := (name, n) :: p.anchors.filter fun a => a.1 ≠ name
      starts := (n, start) :: p.starts })

def addPart (d : Document) (start : Nat) : ParseM Unit :=
  modify fun p => { p with parts := (start, d) :: p.parts }

/-- Marks a value with the variant that its tag stands for. -/
def mark (tag : Option Tag) (d : Document) : Document :=
  match tag.bind Tag.variant? with
  | some name => .tagged name d
  | none => d

mutual

/-- A node. Blocks may stand only where `block` says so, and a sequence without an indent of its own
only where `flush` does. -/
def node : Nat → (block flush : Bool) → ParseM Document
  | 0, _, _ => failure
  | fuel + 1, block, flush => do
    match ← peekToken with
    | some (.alias name) =>
      skip
      return .reference (← (← get).anchors.lookup name)
    | _ =>
      let (anchor, tag) ← properties
      let start ← anchor.mapM setAnchor
      let d ← match ← peekToken with
        | some (.scalar text style) =>
          skip
          pure (scalar text style tag)
        | some .flowSequenceStart =>
          skip
          pure (.list (← flowSequence fuel true []))
        | some .flowMappingStart =>
          skip
          pure (.table (← flowMapping fuel true []))
        | some .blockSequenceStart =>
          if !block then failure
          skip
          pure (.list (← blockSequence fuel []))
        | some .blockMappingStart =>
          if !block then failure
          skip
          pure (.table (← blockMapping fuel []))
        | t =>
          if flush && t = some .blockEntry then pure (.list (← flushSequence fuel []))
          else if anchor.isSome || tag.isSome then pure .blank
          else failure
      let d := mark tag d
      start.forM (addPart d)
      return d

/-- A node, or nothing before one of the tokens that end it. -/
def nodeBefore : Nat → List Token → (block flush : Bool) → ParseM Document
  | 0, _, _, _ => failure
  | fuel + 1, stops, block, flush => do
    if ← isNext stops then return .blank else node fuel block flush

def blockSequence : Nat → List Document → ParseM (List Document)
  | 0, _ => failure
  | fuel + 1, done => do
    if ← accept .blockEntry then
      let d ← nodeBefore fuel [.blockEntry, .blockEnd] true false
      blockSequence fuel (d :: done)
    else if ← accept .blockEnd then return done.reverse
    else failure

/-- A sequence at the indent of the mapping around it. -/
def flushSequence : Nat → List Document → ParseM (List Document)
  | 0, _ => failure
  | fuel + 1, done => do
    if ← accept .blockEntry then
      let d ← nodeBefore fuel [.blockEntry, .key, .value, .blockEnd] true false
      flushSequence fuel (d :: done)
    else return done.reverse

def blockMapping : Nat → List (Document × Document) → ParseM (List (Document × Document))
  | 0, _ => failure
  | fuel + 1, done => do
    if ← accept .blockEnd then return done.reverse
    expect .key
    let key ← nodeBefore fuel [.key, .value, .blockEnd] true true
    let value ← do
      if ← accept .value then nodeBefore fuel [.key, .value, .blockEnd] true true
      else pure .blank
    blockMapping fuel ((key, value) :: done)

/-- The items of a sequence in brackets. A pair in it is a mapping of its own; where the key of the
pair is left out, the mark that stands in its place is passed over. -/
def flowSequence : Nat → Bool → List Document → ParseM (List Document)
  | 0, _, _ => failure
  | fuel + 1, first, done => do
    if ← accept .flowSequenceEnd then return done.reverse
    if !first then expect .flowEntry
    if ← accept .flowSequenceEnd then return done.reverse
    if ← accept .key then
      let key ← do
        if ← isNext [.value, .flowEntry, .flowSequenceEnd] then
          skip
          pure .blank
        else node fuel false false
      let value ← flowValue fuel .flowSequenceEnd
      flowSequence fuel false (.table [(key, value)] :: done)
    else
      let d ← node fuel false false
      flowSequence fuel false (d :: done)

/-- The entries of a mapping in braces. -/
def flowMapping : Nat → Bool → List (Document × Document) → ParseM (List (Document × Document))
  | 0, _, _ => failure
  | fuel + 1, first, done => do
    if ← accept .flowMappingEnd then return done.reverse
    if !first then expect .flowEntry
    if ← accept .flowMappingEnd then return done.reverse
    if ← accept .key then
      let key ← nodeBefore fuel [.value, .flowEntry, .flowMappingEnd] false false
      let value ← flowValue fuel .flowMappingEnd
      flowMapping fuel false ((key, value) :: done)
    else
      let key ← node fuel false false
      flowMapping fuel false ((key, .blank) :: done)

/-- The value of a key inside brackets or braces. -/
def flowValue : Nat → Token → ParseM Document
  | 0, _ => failure
  | fuel + 1, stop => do
    if ← accept .value then nodeBefore fuel [.flowEntry, stop] false false
    else return .blank

end

/-- The directives before a document. A version is given at most once, and a handle is defined at
most once. -/
def directives : Nat → Bool → ParseM Unit
  | 0, _ => failure
  | fuel + 1, versioned => do
    match ← peekToken with
    | some (.version major minor) =>
      if versioned || major ≠ 1 || (minor ≠ 1 && minor ≠ 2) then failure
      skip
      directives fuel true
    | some (.tagHandle handle expansion) =>
      if ((← get).handles.lookup handle).isSome then failure
      skip
      modify fun p => { p with handles := (handle, expansion) :: p.handles }
      directives fuel versioned
    | _ => pure ()

def isDirective : Token → Bool
  | .version _ _ | .tagHandle _ _ => true
  | _ => false

/-- The only document of a stream. One without a mark at its start must not be empty. -/
def stream : ParseM Document := do
  let fuel := 2 * (← get).tokens.length + 2
  match ← peekToken with
  | none => return .blank
  | some t =>
    let isExplicit := t = .documentStart || isDirective t
    if isExplicit then
      directives fuel false
      expect .documentStart
    let isEmpty : Bool := match ← peekToken with
      | some t => t = .documentStart || t = .documentEnd || isDirective t
      | none => true
    let d ← if isExplicit && isEmpty then pure .blank else node fuel true false
    modify fun p => { p with tokens := p.tokens.dropWhile (· = .documentEnd) }
    unless (← peekToken).isNone do failure
    return d

/-- The content of a text. -/
def content? (s : String) : Option Content := do
  let tokens ← tokens? s
  let (root, p) ← stream.run { tokens }
  return ⟨root, p.starts.map fun (n, start) => (n, (p.parts.lookup start).getD .other)⟩

end ExprCompiler.Yaml
