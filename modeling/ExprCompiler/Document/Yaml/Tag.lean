/-
The tags of YAML texts. A tag is a sequence of bytes, because percent escapes in it may give any.
-/
import ExprCompiler.Text.Hex

namespace ExprCompiler.Yaml

abbrev Tag := List UInt8

namespace Tag

/-- The bytes of a text. -/
def ofString (s : String) : Tag :=
  s.toUTF8.toList

/-- How many more bytes a first byte announces. -/
def followers? (n : Nat) : Option Nat :=
  if n < 0x80 then some 0
  else if n / 32 = 6 then some 1
  else if n / 16 = 14 then some 2
  else if n / 8 = 30 then some 3
  else none

/-- The bytes of a written tag, of which so many are still announced. Announced bytes must be
written as escapes. -/
def decode? : Nat → List Char → Option Tag
  | 0, [] => some []
  | _ + 1, [] => none
  | announced, '%' :: a :: b :: rest => do
    let n := (← Text.hexValue? a) * 16 + (← Text.hexValue? b)
    let announced ← match announced with
      | 0 => followers? n
      | k + 1 => if n / 64 = 2 then some k else none
    return n.toUInt8 :: (← decode? announced rest)
  | 0, c :: rest => do
    if c = '%' then none
    return c.toNat.toUInt8 :: (← decode? 0 rest)
  | _ + 1, _ :: _ => none

/-- The tag that is written by characters of ASCII. A zero byte ends it. -/
def ofChars? (cs : List Char) : Option Tag :=
  (decode? 0 cs).map (List.takeWhile (· ≠ 0))

/-- The name of the variant that a local tag stands for. -/
def variant? : Tag → Option String
  | b :: name => if b = 33 then String.fromUTF8? ⟨name.toArray⟩ else none
  | [] => none

/-- What the second of the predefined handles stands for. -/
def standard : Tag :=
  ofString "tag:yaml.org,2002:"

def boolean : Tag :=
  standard ++ ofString "bool"

def integer : Tag :=
  standard ++ ofString "int"

end Tag

end ExprCompiler.Yaml
