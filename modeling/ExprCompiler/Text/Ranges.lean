/-
Sets of characters as tables of runs: how many characters are outside of the set, how many follow inside of it, and so
on by turns.
-/
namespace ExprCompiler

namespace Text

/-- The lengths of runs of code points, by turns outside and inside of the set. -/
abbrev Ranges := List Nat

namespace Ranges

/-- Whether the `n`-th code point of the runs is inside. -/
def covers (n : Nat) : Ranges → Bool
  | outside :: inside :: rest =>
    if n < outside then false
    else if n < outside + inside then true
    else covers (n - (outside + inside)) rest
  | _ => false

/-- Whether a character lies in one of the ranges. -/
def has (table : Ranges) (c : Char) : Bool :=
  covers c.toNat table

end Ranges

end Text

end ExprCompiler
