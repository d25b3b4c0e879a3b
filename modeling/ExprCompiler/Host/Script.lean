/-
Host functions written as scripts over the receiver and the arguments. Every call is recorded in
the journal before the script runs.
-/
import ExprCompiler.Host
import ExprCompiler.Operation

namespace ExprCompiler

inductive Script
  /-- An argument, null when there is none at that position. -/
  | arg (index : Nat)
  | const (v : Value)
  | receiver
  | throwNew (cls : Class) (message : String)
  | throwValue (v : Script)
  | getField (index : Nat) (target : Script)
  /-- Stores into a field of the receiver. -/
  | setField (index : Nat) (v : Script)
  /-- Overwrites the receiver. -/
  | replace (v : Script)
  | arith (op : ArithOp) (left right : Script)
  | compare (op : CmpOp) (left right : Script)
  | concat (left right : Script)
  | make (cls : Class) (fields : List Script)
  | invoke (target : Script) (args : List Script)
  | element (array index : Script)
  | setElement (array index v : Script)
  | seq (items : List Script)
  | cond (test ifTrue ifFalse : Script)

namespace Script

/-- What follows a script: it takes the receiver, the script's value and the heap. -/
abbrev Next (α : Type) := Value → α → Heap → HostAct

/-- Goes on with the value of an operation, or ends in its failure. -/
def settle {α : Type} (this : Value) (h : Heap) (r : Except Cause α) (k : Next α) : HostAct :=
  match r with
  | .ok a => k this a h
  | .error c => .raising this c h

mutual

/-- Runs a script. Operands go from left to right, and an exception ends the whole. -/
def perform (args : List Value) (s : Script) (this : Value) (h : Heap) (k : Next Value) : HostAct :=
  match s with
  | .arg i => k this (args[i]?.getD .null) h
  | .const v => k this v h
  | .receiver => k this this h
  | .throwNew cls message =>
    match h.newException cls message with
    | .ok (v, h) => .throwing this v h
    | .error d => .failing this (.defect d) h
  | .throwValue v =>
    perform args v this h fun this v h =>
      let (v, h) := v.thrown h
      .throwing this v h
  | .getField i target =>
    perform args target this h fun this v h =>
      match h.loadField v i with
      | .ok v => k this v h
      | .error f => .failing this f h
  | .setField i v =>
    perform args v this h fun this v h =>
      match h.storeField this i v with
      | .ok (this, h) => k this .null h
      | .error f => .failing this f h
  | .replace v => perform args v this h fun _ v h => k v .null h
  | .arith op left right =>
    perform args left this h fun this a h =>
      perform args right this h fun this b h => settle this h (a.arith op b .wrap) k
  | .compare op left right =>
    perform args left this h fun this a h =>
      perform args right this h fun this b h => k this (.bool (Value.compareBy op a b)) h
  | .concat left right =>
    perform args left this h fun this a h =>
      perform args right this h fun this b h => k this (Value.concat h a b) h
  | .make cls fields =>
    performAll args fields this h fun this vs h =>
      let (v, h) := h.newInstance cls vs
      k this v h
  | .invoke target callArgs =>
    perform args target this h fun this f h =>
      performAll args callArgs this h fun this vs h =>
        settle this h f.asCallable fun this f h =>
          .call this f vs h fun r h =>
            match r with
            | .ok v => k this v h
            | .error v => .throwing this v h
  | .element array index =>
    perform args array this h fun this a h =>
      perform args index this h fun this i h => settle this h (h.arrayGet a i) k
  | .setElement array index v =>
    perform args array this h fun this a h =>
      perform args index this h fun this i h =>
        perform args v this h fun this v h =>
          settle this h (h.arraySet a i v) fun this h _ => k this .null h
  | .seq items => performSeq args items this .null h k
  | .cond test ifTrue ifFalse =>
    perform args test this h fun this t h =>
      if t.isTrue then perform args ifTrue this h k else perform args ifFalse this h k
termination_by structural s

/-- Runs scripts in order and collects their values. -/
def performAll (args : List Value) (items : List Script) (this : Value) (h : Heap)
    (k : Next (List Value)) : HostAct :=
  match items with
  | [] => k this [] h
  | s :: rest =>
    perform args s this h fun this v h =>
      performAll args rest this h fun this vs h => k this (v :: vs) h
termination_by structural items

/-- Runs scripts in order; the value is the last one's, or `last` if there is none. -/
def performSeq (args : List Value) (items : List Script) (this last : Value) (h : Heap)
    (k : Next Value) : HostAct :=
  match items with
  | [] => k this last h
  | s :: rest => perform args s this h fun this v h => performSeq args rest this v h k
termination_by structural items

end

end Script

/-- How a host function is called, which decides how the journal shows its calls. -/
inductive CallStyle
  /-- Static methods, constructors and delegates. -/
  | free
  | method
  | getter
  | setter
deriving DecidableEq, Inhabited

/-- A scripted host function. -/
structure Routine where
  style : CallStyle
  name : String
  body : Script

namespace Routine

/-- The journal's line for a call. -/
def line (r : Routine) (h : Heap) (call : HostCall) : String :=
  let target := match r.style with
    | .free => r.name
    | .method => call.receiver.describe h ++ "." ++ r.name
    | .getter => call.receiver.describe h ++ ".get_" ++ r.name
    | .setter => call.receiver.describe h ++ ".set_" ++ r.name
  Text.listed (target ++ "(") ", " ")" (call.args.map (Value.describe h))

/-- Records the call and runs the script. -/
def act (r : Routine) (call : HostCall) (h : Heap) : HostAct :=
  r.body.perform call.args call.receiver (h.note (r.line h call)) fun this v h =>
    .finish this (.ok v) h

end Routine

/-- The host whose functions are the given routines, by their position. -/
def Host.scripted (routines : Array Routine) : Host := fun fn call h =>
  match routines[fn.id]? with
  | some r => r.act call h
  | none => .finish call.receiver (.ok .null) h

end ExprCompiler
