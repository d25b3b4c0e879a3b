/-
Instructions and layouts as data. An instruction is a form headed by its mnemonic.
-/
import ExprCompiler.Datum.Value

namespace ExprCompiler.Datum

open ReadM

/-- The layout of captured parameters of the given types. -/
def layout (d : Datum) : ReadM Layout :=
  return .ofTypes [] (← (d "types").tys) [] (← (d "limit").natural)

/-- The instructions without an operand. -/
def plainInstrs : Names Instr :=
  [("nop", .nop), ("dup", .dup), ("pop", .pop), ("not", .complement), ("eq.generic", .genericEq),
    ("concat", .concat), ("unwrap", .unwrap), ("ldlen", .arrayLength), ("ldelem", .loadElem),
    ("stelem", .storeElem), ("ldelema", .loadElemAddr), ("stind", .storeThrough),
    ("curry", .curry), ("throw", .throw), ("enterfinally", .enterFinally),
    ("endfinally", .endFinally), ("ret", .ret)]

/-- The instructions with a number. -/
def numberInstrs : Names (Nat → Instr) :=
  [("ldarg", .loadArg), ("starg", .storeArg), ("ldarga", .loadArgAddr), ("ldloc", .loadLocal),
    ("stloc", .storeLocal), ("ldloca", .loadLocalAddr), ("ldclo.fld", .loadItem .fixed),
    ("stclo.fld", .storeItem .fixed), ("ldclo.item", .loadItem .indexed),
    ("stclo.item", .storeItem .indexed), ("ldclo.addr", .loadItemAddr),
    ("br", .branch .always), ("brtrue", .branch .ifTrue), ("brfalse", .branch .ifFalse),
    ("brnull", .branch .ifNull), ("ldfld", .loadField), ("stfld", .storeField),
    ("ldflda", .loadFieldAddr)]

/-- The instructions with a type. -/
def typeInstrs : Names (Ty → Instr) :=
  [("unbox", .unbox), ("castclass", .castClass), ("newarr", .newArray), ("default", .default)]

def instr (d : Datum) : ReadM Instr := do
  match ← d.form with
  | ("const", [v]) => return .const (← v.value)
  | ("arith", [op, mode]) => return .arith (← op.arithOp) (← mode.overflow)
  | ("neg", [mode]) => return .negate (← mode.overflow)
  | ("cmp", [op]) => return .compare (← op.cmpOp)
  | ("conv", [t, mode]) => return .convert (← t.ty) (← mode.overflow)
  | ("call", [m]) => return .call (← m.method)
  | ("calli", [count, returns]) => return .invoke (← count.natural) (← returns.boolean)
  | ("newobj", [c]) => return .new (← c.constructor)
  | ("newarr.init", [t, count]) => return .newArrayOf (← t.ty) (← count.natural)
  | ("get", [p]) => return .getProperty (← p.property)
  | ("set", [p]) => return .setProperty (← p.property)
  | ("ldsfld", [s]) => return .loadStatic (← s.static)
  | ("stsfld", [s]) => return .storeStatic (← s.static)
  | ("getidx", [ix]) => return .getIndex (← ix.indexer)
  | ("setidx", [ix]) => return .setIndex (← ix.indexer)
  | ("newclosure", [l]) => return .newClosure (← l.layout)
  | (head, []) => among plainInstrs (.text head)
  | (head, [operand]) =>
    match numberInstrs.lookup head with
    | some instr => return instr (← operand.natural)
    | none => return (← among typeInstrs (.text head)) (← operand.ty)
  | _ => malformed "an instruction"

end ExprCompiler.Datum
