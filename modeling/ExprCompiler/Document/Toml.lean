/-
Documents written in TOML. A text is refused as a whole if any part of it breaks the grammar or
defines a key twice.
-/
import ExprCompiler.Document.Toml.Scalar

namespace ExprCompiler.Toml

/-! ## Tables -/

/-- What a key of a table stands for while the text is read. A table is implicit while no header
names it, and dotted if a key with points made it. Tables of an array stand latest first. -/
inductive Item
  | value (d : Document)
  | table (implicit dotted : Bool) (entries : List (String × Item))
  | tables (elements : List (List (String × Item)))

abbrev Entries := List (String × Item)

/-- Replaces what a key stands for; a new key comes last. -/
def alter (key : String) (f : Option Item → Option Item) : Entries → Option Entries
  | [] => do return [(key, ← f none)]
  | (k, item) :: rest =>
    if k == key then do return (k, ← f (some item)) :: rest
    else do return (k, item) :: (← alter key f rest)

/-- Changes the table at a path, making the tables on the way. An array stands for its latest
table. A key with points passes only through tables that no header names. -/
def within (dotted : Bool) (f : Bool → Entries → Option Entries) :
    List String → Bool → Entries → Option Entries
  | [], isDotted, entries => f isDotted entries
  | key :: path, _, entries =>
    entries |> alter key fun
      | none => (within dotted f path dotted []).map (.table true dotted)
      | some (.value _) => none
      | some (.tables []) => none
      | some (.tables (latest :: before)) =>
        (within dotted f path false latest).map fun latest => .tables (latest :: before)
      | some (.table implicit isDotted entries) =>
        if dotted && !implicit then none
        else (within dotted f path isDotted entries).map (.table implicit isDotted)

/-- Defines a key, which may have points, in a table. -/
def define (path : List String) (key : String) (d : Document) (entries : Entries) :
    Option Entries :=
  let insert (isDotted : Bool) (entries : Entries) : Option Entries :=
    if isDotted == path.isEmpty then none
    else entries |> alter key fun
      | none => some (.value d)
      | some _ => none
  within true insert path false entries

/-- Names a table in a header. -/
def openTable (path : List String) (key : String) (entries : Entries) : Option Entries :=
  let insert (_ : Bool) (entries : Entries) : Option Entries :=
    entries |> alter key fun
      | none => some (.table false false [])
      | some (.table true false entries) => some (.table false false entries)
      | some _ => none
  within false insert path false entries

/-- Adds a table to an array in a header. -/
def openElement (path : List String) (key : String) (entries : Entries) : Option Entries :=
  let insert (_ : Bool) (entries : Entries) : Option Entries :=
    entries |> alter key fun
      | none => some (.tables [[]])
      | some (.tables elements) => some (.tables ([] :: elements))
      | some _ => none
  within false insert path false entries

mutual

def Item.document : Item → Document
  | .value d => d
  | .table _ _ entries => .table (documentEntries entries)
  | .tables elements => .list (documentElements elements [])

def documentEntries : List (String × Item) → List (Document × Document)
  | [] => []
  | (key, item) :: rest => (.text key, item.document) :: documentEntries rest

def documentElements : List (List (String × Item)) → List Document → List Document
  | [], done => done
  | entries :: before, done => documentElements before (.table (documentEntries entries) :: done)

end

/-! ## Values -/

def isBareChar (c : Char) : Bool :=
  c.isAlphanum || c == '_' || c == '-'

def simpleKey : Parse String := do
  match ← string? false with
  | some s => return s
  | none =>
    let word ← takeWhile isBareChar
    if word.isEmpty then failure else return String.ofList word

/-- How deep arrays and tables may be nested in a value, and tables by the parts of a key. -/
def maxDepth : Nat := 79

/-- A key with points, as the path to its table and its last part. -/
def dottedKey : Parse (List String × String) := do
  let rec go : Nat → List String → Parse (List String × String)
    | 0, _ => failure
    | fuel + 1, path => do
      blanks
      let key ← simpleKey
      blanks
      if ← accept "." then go fuel (key :: path) else return (path.reverse, key)
  go maxDepth []

/-- Whether a number fits 64 bits with a sign. -/
def isSigned64 (n : Int) : Bool :=
  (BitVec.ofInt 64 n).toInt = n

def isScalarChar (c : Char) : Bool :=
  isBareChar c || c == '+' || c == '.' || c == ':'

/-- A scalar that is no string. A date and a time may have a space between them. -/
def bareScalar : Parse Document := do
  let word ← takeWhile isScalarChar
  let word ← match ← get with
    | ' ' :: c :: _ =>
      if date? word == some [] && c.isDigit then
        discard next
        pure (word ++ ' ' :: (← takeWhile isScalarChar))
      else pure word
    | _ => pure word
  if word == "true".toList then return .boolean true
  else if word == "false".toList then return .boolean false
  else match integer? word with
    | some n => if isSigned64 n then return .integer n else failure
    | none =>
      if isFloat word then return .other
      else if isDateTime word then return .moment
      else failure

/-- The items of an array, after its opening bracket. -/
def arrayItems (value : Parse Document) : Nat → List Document → Parse (List Document)
  | 0, _ => failure
  | fuel + 1, done => do
    gap
    if ← accept "]" then return done.reverse
    let d ← value
    gap
    if ← accept "," then arrayItems value fuel (d :: done)
    else
      expect "]"
      return (d :: done).reverse

/-- The entries of a table on one line, after its opening brace. -/
def inlineEntries (value : Parse Document) : Nat → Entries → Parse Entries
  | 0, _ => failure
  | fuel + 1, entries => do
    let (path, key) ← dottedKey
    expect "="
    blanks
    let d ← value
    blanks
    let entries ← define path key d entries
    if ← accept "," then inlineEntries value fuel entries
    else
      expect "\x7d"
      return entries

def scalar : Parse Document := do
  match ← string? true with
  | some s => return .text s
  | none => bareScalar

/-- A value in which arrays and tables are nested at most so deep. -/
def value : Nat → Parse Document
  | 0 => scalar
  | depth + 1 => do
    match ← peek with
    | some '[' =>
      discard next
      return .list (← arrayItems (value depth) ((← get).length + 1) [])
    | some '\x7b' =>
      discard next
      blanks
      if ← accept "\x7d" then return .table []
      let entries ← inlineEntries (value depth) ((← get).length + 1) []
      return .table (documentEntries entries)
    | _ => scalar

/-! ## Documents -/

/-- A header: the path of its table, its last key, and whether it adds to an array. -/
def header : Parse (List String × String × Bool) := do
  let isElement ← accept "[["
  unless isElement do expect "["
  let (path, key) ← dottedKey
  expect (if isElement then "]]" else "]")
  return (path, key, isElement)

/-- Reads line after line. The path is that of the table that the latest header names. -/
def lines : Nat → List String → Entries → Parse Entries
  | 0, _, _ => failure
  | fuel + 1, current, root => do
    blanks
    match ← peek with
    | none => return root
    | some '#' | some '\n' | some '\r' =>
      lineEnd
      lines fuel current root
    | some '[' =>
      let (path, key, isElement) ← header
      lineEnd
      let root ← if isElement then openElement path key root else openTable path key root
      lines fuel (path ++ [key]) root
    | some _ =>
      let (path, key) ← dottedKey
      expect "="
      blanks
      let d ← value maxDepth
      lineEnd
      let root ← within false (fun _ entries => define path key d entries) current false root
      lines fuel current root

/-- The content of a text; a mark of the byte order is skipped. -/
def content? (s : String) : Option Content :=
  let cs := s.toList
  let cs := if cs.head? = some '\ufeff' then cs.drop 1 else cs
  match (lines (cs.length + 1) [] []).run cs with
  | some (entries, _) => some ⟨.table (documentEntries entries), []⟩
  | none => none

end ExprCompiler.Toml
