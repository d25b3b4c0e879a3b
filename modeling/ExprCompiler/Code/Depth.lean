/-
The depth of the stack at each instruction, as far as control reaches it: every path to an
instruction must arrive with the same depth, no instruction may pop more than is there, and a unit
returns with exactly one value. Depths are machine words, which a handler's depth can exceed.
-/
import ExprCompiler.Code.Unit

namespace ExprCompiler

/-- What is wrong with a unit's use of the stack. -/
inductive DepthProblem
  | pastEnd (pc : Nat)
  | disagreement (pc : Nat) (instr : Instr) (depth seen : Nat)
  | underflow (pc : Nat) (instr : Instr)
  /-- A depth is no machine word. -/
  | overflow
  | badReturn (pc depth : Nat)

def DepthProblem.message (h : Heap) : DepthProblem → String
  | .pastEnd pc => s!"control reaches {pc} past the end"
  | .disagreement pc instr depth seen =>
    s!"depth {depth} at {pc} (" ++ instr.text h ++ s!") disagrees with {seen}"
  | .underflow pc instr => s!"stack underflow at {pc} (" ++ instr.text h ++ ")"
  | .overflow => "attempt to add with overflow"
  | .badReturn pc depth => s!"return at {pc} with depth {depth}"

/-- The depths found so far, by instruction. -/
abbrev Depths := Array (Option Nat)

namespace Depths

/-- A point that control reaches, with the depth there. -/
abbrev Point := Nat × Nat

/-- The depths that a word can hold are below this. Positions are words too, and code lifts the stack by no
more than its own length: only a handler's depth comes near the limit. -/
def limit (instrs : Array Instr) : Nat :=
  max (Nat.pow 2 64) (instrs.size + 1)

/-- The points that follow an instruction; the last one pushed is looked at first. -/
def successors (instr : Instr) (pc after : Nat) : List Point :=
  (if instr.endsFlow then [] else [(pc + 1, after)]) ++ (instr.target?.map (·, after)).toList

/-- Records a point and gives the points that follow it if it is new. -/
def visit (instrs : Array Instr) (depths : Depths) (p : Point) :
    Except DepthProblem (Depths × List Point) :=
  let (pc, depth) := p
  match instrs[pc]? with
  | none => .error (.pastEnd pc)
  | some instr =>
    match depths[pc]?.join with
    | some seen =>
      if seen = depth then .ok (depths, []) else .error (.disagreement pc instr depth seen)
    | none =>
      if depth < instr.pops then .error (.underflow pc instr)
      else if limit instrs ≤ depth - instr.pops + instr.pushes then .error .overflow
      else if instr matches .ret ∧ depth ≠ 1 then .error (.badReturn pc depth)
      else
        .ok (depths.setIfInBounds pc (some depth),
          successors instr pc (depth - instr.pops + instr.pushes))

/-- Works through the points still to be looked at. Each of them is new or known, and a new one
adds at most two, so `fuel` twice the number of instructions and the points to start with is
enough. -/
def explore (instrs : Array Instr) : Nat → Depths → List Point → Except DepthProblem Depths
  | 0, depths, _ => .ok depths
  | _, depths, [] => .ok depths
  | fuel + 1, depths, p :: work =>
    match visit instrs depths p with
    | .error e => .error e
    | .ok (depths, more) => explore instrs fuel depths (more ++ work)

end Depths

namespace CodeUnit

/-- The points that control reaches from outside: the start and the handlers. -/
def entryPoints (u : CodeUnit) : List Depths.Point :=
  u.handlers.reverse.map (fun e => (e.target, e.entryDepth)) ++ [(0, 0)]

/-- The depth of the stack before each instruction that control reaches. -/
def depths (u : CodeUnit) : Except DepthProblem Depths :=
  if u.handlers.any (Depths.limit u.instrs ≤ ·.entryDepth) then .error .overflow
  else Depths.explore u.instrs (2 * u.instrs.size + u.handlers.length + 1)
    (Array.replicate u.instrs.size none) u.entryPoints

end CodeUnit

end ExprCompiler
