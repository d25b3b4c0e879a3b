/-
The scalars of TOML texts: strings, numbers and dates.
-/
import ExprCompiler.Document
import ExprCompiler.Text.Hex

namespace ExprCompiler.Toml

/-! ## Characters -/

abbrev Parse := StateT (List Char) Option

def next : Parse Char := do
  match ← get with
  | c :: rest =>
    set rest
    return c
  | [] => failure

def peek : Parse (Option Char) :=
  return (← get).head?

/-- Takes a word if it comes next. -/
def accept (word : String) : Parse Bool := do
  let cs ← get
  if word.toList.isPrefixOf cs then
    set (cs.drop word.length)
    return true
  else return false

def expect (word : String) : Parse Unit := do
  unless ← accept word do failure

def takeWhile (p : Char → Bool) : Parse (List Char) :=
  modifyGet fun cs => (cs.takeWhile p, cs.dropWhile p)

def isBlank (c : Char) : Bool :=
  c == ' ' || c == '\t'

def blanks : Parse Unit :=
  discard (takeWhile isBlank)

/-- Characters of comments and of literal strings. -/
def isLineChar (c : Char) : Bool :=
  c == '\t' || (' ' ≤ c && c != '\x7f')

def newline : Parse Bool := do
  if ← accept "\n" then return true else accept "\r\n"

/-- A comment up to the end of its line. -/
def comment : Parse Unit := do
  if ← accept "#" then discard (takeWhile isLineChar)

/-- The end of a line or of the text. -/
def lineEnd : Parse Unit := do
  blanks
  comment
  unless (← get).isEmpty || (← newline) do failure

/-- What follows blanks and line ends, and comments where they may stand. The flag tells whether the
characters are those of a comment. -/
def afterGap (comments : Bool) : Bool → List Char → List Char
  | _, [] => []
  | _, '\r' :: '\n' :: rest => afterGap comments false rest
  | inComment, c :: rest =>
    if c = '\n' then afterGap comments false rest
    else if inComment then if isLineChar c then afterGap comments true rest else c :: rest
    else if isBlank c then afterGap comments false rest
    else if comments && c = '#' then afterGap comments true rest
    else c :: rest

/-- Blanks, comments and line ends between the items of an array. -/
def gap : Parse Unit :=
  modify (afterGap true false)

/-! ## Strings -/

/-- A character given by its number in that many hexadecimal digits. -/
def numbered (digits : Nat) : Parse Char := do
  let cs ← get
  let word := cs.take digits
  if word.length ≠ digits then failure
  set (cs.drop digits)
  (Text.numberIn? 16 word).bind Text.charOf?

/-- The character of an escape, whose backslash has been read. -/
def escape : Parse Char := do
  match ← next with
  | 'b' => return '\x08'
  | 't' => return '\t'
  | 'n' => return '\n'
  | 'f' => return '\x0c'
  | 'r' => return '\r'
  | '"' => return '"'
  | '\\' => return '\\'
  | 'u' => numbered 4
  | 'U' => numbered 8
  | _ => failure

/-- After a backslash at the end of a line: the text goes on at the next character that is not
white. Tells whether there was such an end. -/
def continuation : Parse Bool := do
  let cs ← get
  blanks
  if ← newline then
    modify (afterGap false false)
    return true
  else
    set cs
    return false

/-- A string on one line, after its opening quote. -/
def shortString (quote : Char) (escapes : Bool) : Nat → List Char → Parse String
  | 0, _ => failure
  | fuel + 1, done => do
    let c ← next
    if c == quote then return String.ofList done.reverse
    else if escapes && c == '\\' then shortString quote escapes fuel ((← escape) :: done)
    else if isLineChar c then shortString quote escapes fuel (c :: done)
    else failure

/-- A string over several lines, after its opening quotes. Up to two quotes may stand before the
three that close it. -/
def longString (quote : Char) (escapes : Bool) : Nat → List Char → Parse String
  | 0, _ => failure
  | fuel + 1, done => do
    let quotes := ((← get).takeWhile (· == quote)).length
    if 3 ≤ quotes then
      let kept := min (quotes - 3) 2
      modify (·.drop (kept + 3))
      return String.ofList ((List.replicate kept quote ++ done).reverse)
    else if ← newline then longString quote escapes fuel ('\n' :: done)
    else
      let c ← next
      if escapes && c == '\\' then
        if ← continuation then longString quote escapes fuel done
        else longString quote escapes fuel ((← escape) :: done)
      else if isLineChar c then longString quote escapes fuel (c :: done)
      else failure

/-- A string, if one comes next. -/
def string? (long : Bool) : Parse (Option String) := do
  let fuel := (← get).length + 1
  let opened (quote : Char) (escapes : Bool) : Parse (Option String) := do
    let isLong ← if long then accept (String.ofList [quote, quote, quote]) else pure false
    if isLong then
      discard newline
      return some (← longString quote escapes fuel [])
    else
      discard next
      return some (← shortString quote escapes fuel [])
  match ← peek with
  | some '"' => opened '"' true
  | some '\'' => opened '\'' false
  | _ => return none

/-! ## Numbers and dates -/

/-- The digits of a number in which single underscores may stand between digits. -/
def grouped? (isDigit : Char → Bool) (cs : List Char) : Option (List Char) :=
  let groups := (String.ofList cs).splitOn "_"
  if groups.all fun g => !g.isEmpty && g.all isDigit then some (cs.filter (· != '_')) else none

def valueIn (base : Nat) (digits : List Char) : Nat :=
  digits.foldl (fun n c => n * base + (Text.hexValue? c).getD 0) 0

/-- A natural number without leading zeros. -/
def decimal? (cs : List Char) : Option Nat := do
  let digits ← grouped? Char.isDigit cs
  if cs.head? = some '0' ∧ cs.length ≠ 1 then none else some (valueIn 10 digits)

def unsigned (cs : List Char) : Bool × List Char :=
  match cs with
  | '-' :: rest => (true, rest)
  | '+' :: rest => (false, rest)
  | cs => (false, cs)

def integer? (cs : List Char) : Option Int :=
  match cs with
  | '0' :: 'x' :: rest =>
    (grouped? (fun c => (Text.hexValue? c).isSome) rest).map fun ds => (valueIn 16 ds : Int)
  | '0' :: 'o' :: rest =>
    (grouped? (fun c => '0' ≤ c && c ≤ '7') rest).map fun ds => (valueIn 8 ds : Int)
  | '0' :: 'b' :: rest =>
    (grouped? (fun c => c == '0' || c == '1') rest).map fun ds => (valueIn 2 ds : Int)
  | cs =>
    let (negative, rest) := unsigned cs
    (decimal? rest).map fun n => if negative then -(n : Int) else n

/-- Whether digits times a power of ten are beyond all doubles. -/
def isHuge (digits : List Char) (exponent : Int) : Bool :=
  let digits := digits.dropWhile (· == '0')
  let magnitude := digits.length + exponent
  if digits.isEmpty || magnitude < 309 then false
  else if 310 < magnitude then true
  else
    let n := valueIn 10 digits
    let limit := Nat.pow 2 1024 - Nat.pow 2 970
    if 0 ≤ exponent then limit ≤ n * Nat.pow 10 exponent.toNat
    else limit * Nat.pow 10 (-exponent).toNat ≤ n

/-- A number with a fraction or an exponent. Positive ones must not be beyond all doubles. -/
def isFloat (cs : List Char) : Bool :=
  let (negative, body) := unsigned cs
  if body == "inf".toList || body == "nan".toList then true
  else
    let mantissa := body.takeWhile fun c => c != 'e' && c != 'E'
    let power := body.drop (mantissa.length + 1)
    let whole := mantissa.takeWhile (· != '.')
    let fraction := mantissa.drop (whole.length + 1)
    let hasPoint := mantissa.length ≠ whole.length
    let hasPower := body.length ≠ mantissa.length
    let (down, powerDigits) := unsigned power
    match grouped? Char.isDigit (if hasPoint then fraction else ['0']),
      grouped? Char.isDigit (if hasPower then powerDigits else ['0']) with
    | some places, some exponent =>
      let n : Int := valueIn 10 exponent
      let places := if hasPoint then places else []
      let exponent := (if down then -n else n) - places.length
      (decimal? whole).isSome && (hasPoint || hasPower) &&
        (negative || !isHuge (whole.filter (· != '_') ++ places) exponent)
    | _, _ => false

/-- Takes a number of that many digits from the front. -/
def digits? (count : Nat) (cs : List Char) : Option (Nat × List Char) :=
  let word := cs.take count
  if word.length = count ∧ word.all Char.isDigit then some (valueIn 10 word, cs.drop count)
  else none

def daysIn (year month : Nat) : Nat :=
  if month = 2 then
    if year % 4 = 0 ∧ (year % 100 ≠ 0 ∨ year % 400 = 0) then 29 else 28
  else if month ∈ [4, 6, 9, 11] then 30
  else 31

/-- Takes a mark from the front. -/
def mark? (mark : Char) : List Char → Option (List Char)
  | c :: rest => if c = mark then some rest else none
  | [] => none

/-- Takes a date from the front. -/
def date? (cs : List Char) : Option (List Char) := do
  let (year, cs) ← digits? 4 cs
  let (month, cs) ← digits? 2 (← mark? '-' cs)
  let (day, cs) ← digits? 2 (← mark? '-' cs)
  if 1 ≤ month ∧ month ≤ 12 ∧ 1 ≤ day ∧ day ≤ daysIn year month then some cs else none

/-- Takes a time of day from the front. -/
def time? (cs : List Char) : Option (List Char) := do
  let (hour, cs) ← digits? 2 cs
  let (minute, cs) ← digits? 2 (← mark? ':' cs)
  let (second, cs) ← digits? 2 (← mark? ':' cs)
  if 23 < hour ∨ 59 < minute ∨ 60 < second then none
  else match cs with
    | '.' :: rest =>
      if (rest.takeWhile Char.isDigit).isEmpty then none else some (rest.dropWhile Char.isDigit)
    | cs => some cs

/-- Whether the rest of a date with a time is a distance from universal time, or nothing. -/
def isOffset (cs : List Char) : Bool :=
  match cs with
  | [] | ['Z'] | ['z'] => true
  | sign :: rest =>
    let parts := do
      let (hour, rest) ← digits? 2 rest
      let (minute, rest) ← digits? 2 (← mark? ':' rest)
      some (hour, minute, rest)
    match parts with
    | some (hour, minute, rest) =>
      (sign == '+' || sign == '-') && hour ≤ 23 && minute ≤ 59 && rest.isEmpty
    | none => false

/-- A date, a time of day, or both with or without an offset. -/
def isDateTime (cs : List Char) : Bool :=
  match date? cs with
  | some [] => true
  | some (c :: rest) =>
    (c == 'T' || c == 't' || c == ' ') && ((time? rest).map isOffset).getD false
  | none => time? cs == some []

end ExprCompiler.Toml
