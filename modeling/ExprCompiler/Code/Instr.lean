/-
The instructions of the stack machine. Branch targets are positions in the instruction list.
-/
import ExprCompiler.Closure
import ExprCompiler.Member

namespace ExprCompiler

/-- When a branch is taken. All but the first pop the value that they test. -/
inductive BranchKind
  | always | ifTrue | ifFalse | ifNull
deriving DecidableEq, Repr, Inhabited

inductive Instr
  | nop
  | const (v : Value)
  | loadArg (index : Nat)
  | storeArg (index : Nat)
  | loadArgAddr (index : Nat)
  | loadLocal (index : Nat)
  | storeLocal (index : Nat)
  | loadLocalAddr (index : Nat)
  /-- Reads an item of the unit's closure. -/
  | loadItem (strategy : Strategy) (slot : Nat)
  | storeItem (strategy : Strategy) (slot : Nat)
  | loadItemAddr (slot : Nat)
  | unbox (ty : Ty)
  | castClass (ty : Ty)
  | dup
  | pop
  | arith (op : ArithOp) (mode : Overflow)
  | negate (mode : Overflow)
  | complement
  | compare (op : CmpOp)
  | genericEq
  | concat
  | convert (target : Ty) (mode : Overflow)
  | unwrap
  | arrayLength
  | branch (kind : BranchKind) (target : Nat)
  /-- Calls a host method; an instance method takes its receiver below the arguments. -/
  | call (m : Method)
  /-- Calls the function value below the arguments. -/
  | invoke (argc : Nat) (returns : Bool)
  | new (ctor : Constructor)
  /-- An array of the topmost values. -/
  | newArrayOf (elem : Ty) (count : Nat)
  | newArray (elem : Ty)
  | loadElem
  | storeElem
  | loadElemAddr
  | loadField (index : Nat)
  | storeField (index : Nat)
  | loadFieldAddr (index : Nat)
  | getProperty (p : Property)
  | setProperty (p : Property)
  | loadStatic (s : StaticRef)
  | storeStatic (s : StaticRef)
  | getIndex (ix : Indexer)
  | setIndex (ix : Indexer)
  /-- Stores the top value through the address below it. -/
  | storeThrough
  | default (ty : Ty)
  /-- Builds a closure from the topmost values. -/
  | newClosure (layout : Layout)
  /-- Binds a closure to the unit below it. -/
  | curry
  | throw
  /-- Opens a finally body that is reached without an exception. -/
  | enterFinally
  /-- Closes a finally body; throws a pending exception again. -/
  | endFinally
  | ret

instance : Inhabited Instr := ⟨.nop⟩

namespace Instr

/-- How many values the instruction pops. -/
def pops : Instr → Nat
  | .nop | .enterFinally | .endFinally | .branch .always _ => 0
  | .const _ | .loadArg _ | .loadArgAddr _ | .loadLocal _ | .loadLocalAddr _ => 0
  | .loadItem _ _ | .loadItemAddr _ | .loadStatic _ | .default _ => 0
  | .storeArg _ | .storeLocal _ | .storeItem _ _ | .storeStatic _ => 1
  | .pop | .throw | .ret | .branch _ _ => 1
  | .unbox _ | .castClass _ | .negate _ | .complement | .convert _ _ | .unwrap | .arrayLength => 1
  | .loadField _ | .loadFieldAddr _ | .getProperty _ | .newArray _ | .dup => 1
  | .arith _ _ | .compare _ | .genericEq | .concat | .loadElem | .loadElemAddr | .curry => 2
  | .storeField _ | .setProperty _ | .storeThrough => 2
  | .storeElem => 3
  | .call m => m.params.length + (if m.isStatic then 0 else 1)
  | .invoke argc _ => argc + 1
  | .new ctor => ctor.params.length
  | .newArrayOf _ count => count
  | .getIndex ix => ix.params.length + 1
  | .setIndex ix => ix.params.length + 2
  | .newClosure layout => layout.size

/-- How many values the instruction pushes. -/
def pushes : Instr → Nat
  | .nop | .enterFinally | .endFinally | .branch _ _ => 0
  | .storeArg _ | .storeLocal _ | .storeItem _ _ | .storeStatic _ | .pop | .throw | .ret => 0
  | .storeField _ | .setProperty _ | .storeThrough | .storeElem | .setIndex _ => 0
  | .dup => 2
  | .call m => if m.ret.isVoid then 0 else 1
  | .invoke _ returns => if returns then 1 else 0
  | _ => 1

/-- The target of a branch. -/
def target? : Instr → Option Nat
  | .branch _ t => some t
  | _ => none

/-- A branch with another target. Only branches have one. -/
def retarget (target : Nat) : Instr → Instr
  | .branch kind _ => .branch kind target
  | i => i

/-- Execution never goes on with the next instruction. -/
def endsFlow : Instr → Bool
  | .branch .always _ | .throw | .ret => true
  | _ => false

/-- The listing form of an instruction. -/
def text (h : Heap) : Instr → String
  | .nop => "nop"
  | .const v => "const " ++ v.describe h
  | .loadArg i => s!"ldarg {i}"
  | .storeArg i => s!"starg {i}"
  | .loadArgAddr i => s!"ldarga {i}"
  | .loadLocal i => s!"ldloc {i}"
  | .storeLocal i => s!"stloc {i}"
  | .loadLocalAddr i => s!"ldloca {i}"
  | .loadItem .fixed i => s!"ldclo.fld {i}"
  | .storeItem .fixed i => s!"stclo.fld {i}"
  | .loadItem .indexed i => s!"ldclo.item {i}"
  | .storeItem .indexed i => s!"stclo.item {i}"
  | .loadItemAddr i => s!"ldclo.addr {i}"
  | .unbox ty => "unbox " ++ ty.text
  | .castClass ty => "castclass " ++ ty.text
  | .dup => "dup"
  | .pop => "pop"
  | .arith op mode => op.name ++ " " ++ mode.name
  | .negate mode => "neg " ++ mode.name
  | .complement => "not"
  | .compare op => "cmp " ++ op.name
  | .genericEq => "eq.generic"
  | .concat => "concat"
  | .convert ty mode => "conv " ++ ty.text ++ " " ++ mode.name
  | .unwrap => "unwrap"
  | .arrayLength => "ldlen"
  | .branch .always t => s!"br {t}"
  | .branch .ifTrue t => s!"brtrue {t}"
  | .branch .ifFalse t => s!"brfalse {t}"
  | .branch .ifNull t => s!"brnull {t}"
  | .call m => "call " ++ m.describe
  | .invoke argc _ => s!"calli {argc}"
  | .new ctor => "newobj " ++ ctor.describe
  | .newArrayOf elem count => "newarr " ++ elem.text ++ s!"[{count}] init"
  | .newArray elem => "newarr " ++ elem.text
  | .loadElem => "ldelem"
  | .storeElem => "stelem"
  | .loadElemAddr => "ldelema"
  | .loadField i => s!"ldfld {i}"
  | .storeField i => s!"stfld {i}"
  | .loadFieldAddr i => s!"ldflda {i}"
  | .getProperty p => "get " ++ p.name
  | .setProperty p => "set " ++ p.name
  | .loadStatic s => "ldsfld " ++ s.name
  | .storeStatic s => "stsfld " ++ s.name
  | .getIndex ix => "getidx " ++ ix.describe
  | .setIndex ix => "setidx " ++ ix.describe
  | .storeThrough => "stind"
  | .default ty => "default " ++ ty.text
  | .newClosure layout => s!"newclosure {layout.size}"
  | .curry => "curry"
  | .throw => "throw"
  | .enterFinally => "enterfinally"
  | .endFinally => "endfinally"
  | .ret => "ret"

end Instr

end ExprCompiler
