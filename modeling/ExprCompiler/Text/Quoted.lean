/-
Quoted text, as listings and messages show strings: in double quotes, with the usual short escapes
and code points for characters that would not be seen.
-/
import ExprCompiler.Text.Escaped
import ExprCompiler.Text.Hex

namespace ExprCompiler

namespace Text

/-- The written form of one character inside quotes. -/
def quoteChar (c : Char) : String :=
  if c == '\x00' then "\\0"
  else if c == '\t' then "\\t"
  else if c == '\r' then "\\r"
  else if c == '\n' then "\\n"
  else if c == '\x22' then "\\\""
  else if c == '\x5c' then "\\\\"
  else if isEscaped c then "\\u\x7b" ++ hex c.toNat ++ "\x7d"
  else String.singleton c

/-- The quoted form of a text. -/
def quote (s : String) : String :=
  "\"" ++ String.join (s.toList.map quoteChar) ++ "\""

/-- Items between `open_` and `close`, with `sep` between each two. -/
def listed (open_ sep close : String) (items : List String) : String :=
  open_ ++ sep.intercalate items ++ close

/-- A bracketed list. -/
def bracketed (items : List String) : String :=
  listed "[" ", " "]" items

/-- A record with named fields. -/
def record (name : String) (fields : List (String × String)) : String :=
  listed (name ++ " \x7b ") ", " " \x7d" (fields.map fun (field, text) => field ++ ": " ++ text)

end Text

end ExprCompiler
