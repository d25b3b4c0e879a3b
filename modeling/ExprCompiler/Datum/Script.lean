/-
Host scripts as data.
-/
import ExprCompiler.Datum.Value

namespace ExprCompiler.Datum

open ReadM

/-- A script. Its constants are made here, once for all calls. -/
def script : Datum → ReadM Script :=
  inward fun script d => do
    match ← d.form with
    | ("arg", [i]) => return .arg (← i.natural)
    | ("const", [v]) => return .const (← v.value)
    | ("this", []) => return .receiver
    | ("throw", [c, message]) => return .throwNew (← c.cls) (← message.string)
    | ("throwval", [v]) => return .throwValue (← script v)
    | ("getf", [i, target]) => return .getField (← i.natural) (← script target)
    | ("setf", [i, v]) => return .setField (← i.natural) (← script v)
    | ("replace", [v]) => return .replace (← script v)
    | ("arith", [op, l, r]) => return .arith (← op.arithOp) (← script l) (← script r)
    | ("cmp", [op, l, r]) => return .compare (← op.cmpOp) (← script l) (← script r)
    | ("concat", [l, r]) => return .concat (← script l) (← script r)
    | ("make", [c, fields]) => return .make (← c.cls) (← many script fields)
    | ("invoke", [target, args]) => return .invoke (← script target) (← many script args)
    | ("elem", [array, i]) => return .element (← script array) (← script i)
    | ("setelem", [array, i, v]) =>
      return .setElement (← script array) (← script i) (← script v)
    | ("seq", [items]) => return .seq (← many script items)
    | ("if", [test, a, b]) => return .cond (← script test) (← script a) (← script b)
    | _ => malformed "a host script"

/-- Registers a host function whose body is a script. -/
def routine (style : CallStyle) (name : String) (d : Datum) : ReadM HostRef := do
  let body ← d.script
  modifyGet fun s => (⟨s.routines.size⟩, { s with routines := s.routines.push ⟨style, name, body⟩ })

end ExprCompiler.Datum
