/-
What an instruction does to the evaluation stack. It takes its operands off the top and puts its
results there; what lies below stays as it is, and an instruction that throws has taken some of its
operands and put nothing back. An instruction that finds its operands never runs out of values,
unless a function that it calls does.
-/
import ExprCompiler.Machine
import ExprCompiler.Proofs.Act
import Mathlib.Tactic

namespace ExprCompiler

/-- No function called from a frame ends by running out of values itself. -/
structure FrameContext.CallsSafely (ctx : FrameContext) : Prop where
  host : ∀ fn call h w, ((ctx.lib.host fn call h).run ctx.inv w).1.2 ≠ .error (.defect .stackUnderflow)
  invoke : ∀ f args w, (ctx.inv f args w).1 ≠ .error (.defect .stackUnderflow)

namespace MachineM

variable {α β : Type} {ctx : FrameContext}

/-- The ends of a computation that takes `n` values off a stack and gives a value with `Q`. -/
def Ends (ctx : FrameContext) (n : Nat) (stack : List Value) (Q : α → Prop) :
    Except Stop α × Frame × World → Prop
  | (.ok a, f, _) => f.stack = stack.drop n ∧ Q a
  | (.error stop, f, _) =>
    (∃ k ≤ n, f.stack = stack.drop k) ∧ (ctx.CallsSafely → stop ≠ .defect .stackUnderflow)

/-- The computation takes `n` values off every stack that holds as many. -/
def Takes (ctx : FrameContext) (n : Nat) (x : MachineM α) (Q : α → Prop := fun _ => True) : Prop :=
  ∀ s : Frame × World, n ≤ s.1.stack.length → Ends ctx n s.1.stack Q (x ctx s)

/-- The value or failure that a call gives. -/
def SafeEnd (ctx : FrameContext) (r : Except Stop α) : Prop :=
  ctx.CallsSafely → r ≠ .error (.defect .stackUnderflow)

/-! ## Rules -/

namespace Takes

variable {Q : α → Prop} {x : MachineM α}

theorem of_pure {a : α} (h : Q a) : Takes ctx 0 (pure a) Q :=
  fun s _ => ⟨by simp, h⟩

theorem bind {m n : Nat} {y : α → MachineM β} {R : β → Prop}
    (hx : Takes ctx m x Q) (hy : ∀ a, Q a → Takes ctx n (y a) R) : Takes ctx (m + n) (x >>= y) R := by
  intro s hs
  have h := hx s (by omega)
  rcases hxs : x ctx s with ⟨e | a, f, w⟩ <;> rw [hxs] at h
  · rw [Act.bind_error hxs]
    obtain ⟨⟨k, hk, hf⟩, hu⟩ := h
    exact ⟨⟨k, by omega, hf⟩, hu⟩
  · rw [Act.bind_ok hxs]
    obtain ⟨hf, ha⟩ := h
    have h' := hy a ha (f, w) (by simp only [hf, List.length_drop]; omega)
    rcases hya : y a ctx (f, w) with ⟨e | b, g, v⟩ <;> rw [hya] at h' <;> simp only [hf] at h'
    · obtain ⟨⟨k, hk, hg⟩, hu⟩ := h'
      exact ⟨⟨m + k, by omega, by rw [hg, List.drop_drop]⟩, hu⟩
    · exact ⟨by rw [h'.1, List.drop_drop], h'.2⟩

/-- A computation that takes nothing, before another. -/
theorem bind_keep {n : Nat} {y : α → MachineM β} {R : β → Prop}
    (hx : Takes ctx 0 x Q) (hy : ∀ a, Q a → Takes ctx n (y a) R) : Takes ctx n (x >>= y) R := by
  simpa using hx.bind hy

theorem own : Takes ctx 0 Act.own := fun s _ => ⟨by simp, trivial⟩

theorem world : Takes ctx 0 Act.world := fun s _ => ⟨by simp, trivial⟩

theorem heap : Takes ctx 0 Act.heap := fun s _ => ⟨by simp, trivial⟩

theorem read : Takes ctx 0 (read : MachineM FrameContext) (· = ctx) := fun s _ => ⟨by simp, rfl⟩

theorem change (g : World → α × World) : Takes ctx 0 (Act.change g) := fun s _ => ⟨by simp, trivial⟩

theorem allocate (g : Heap → α × Heap) : Takes ctx 0 (Act.allocate g) := change _

theorem setHeap (h : Heap) : Takes ctx 0 (Act.setHeap h) := allocate _

theorem modifyOwn {g : Frame → Frame} (h : ∀ f, (g f).stack = f.stack) : Takes ctx 0 (Act.modifyOwn g) :=
  fun s _ => ⟨by simp [h], trivial⟩

theorem ofExcept {r : Except Stop α} (h : SafeEnd ctx r) : Takes ctx 0 (MonadExcept.ofExcept r) := by
  intro s _
  rw [Act.ofExcept_apply]
  cases r with
  | ok a => exact ⟨by simp, trivial⟩
  | error e => exact ⟨⟨0, le_rfl, by simp⟩, fun hc he => h hc (by rw [he])⟩

theorem throwing (v : Value) : Takes ctx 0 (Act.throwing v) Q :=
  fun s _ => ⟨⟨0, le_rfl, by simp⟩, fun _ => by simp⟩

theorem defect {d : Defect} (h : d ≠ .stackUnderflow) : Takes ctx 0 (Act.defect d : MachineM α) :=
  fun s _ => ⟨⟨0, le_rfl, by simp⟩, fun _ => by simpa using h⟩

theorem raise (c : Cause) : Takes ctx 0 (Act.raise c : MachineM α) :=
  (allocate _).bind_keep fun _ _ => throwing _

theorem settle (r : Except Cause α) : Takes ctx 0 (Act.settle r) := by
  cases r with
  | ok a => exact of_pure trivial
  | error c => exact raise c

theorem attempt {r : Except Failure α} (h : r ≠ .error (.defect .stackUnderflow)) :
    Takes ctx 0 (Act.attempt r) := by
  rcases r with (c | d) | a
  · exact raise c
  · exact defect (by rintro rfl; exact h rfl)
  · exact of_pure trivial

theorem check {r : Except Defect α} (h : r ≠ .error .stackUnderflow) : Takes ctx 0 (Act.check r) := by
  cases r with
  | ok a => exact of_pure trivial
  | error d => exact defect (by rintro rfl; exact h rfl)

theorem observe (hx : Takes ctx 0 x) : Takes ctx 0 (Act.observe x) := by
  intro s hs
  have h := hx s hs
  rw [Act.observe_apply]
  rcases hxs : x ctx s with ⟨e | a, f, w⟩ <;> rw [hxs] at h
  · obtain ⟨⟨k, hk, hf⟩, -⟩ := h
    obtain rfl : k = 0 := by omega
    exact ⟨hf, trivial⟩
  · exact ⟨h.1, trivial⟩

theorem ite {n : Nat} {c : Prop} [Decidable c] {y : MachineM α}
    (hx : c → Takes ctx n x Q) (hy : ¬ c → Takes ctx n y Q) : Takes ctx n (if c then x else y) Q := by
  split
  · exact hx ‹_›
  · exact hy ‹_›

/-! ## The stack itself -/

theorem pop : Takes ctx 1 pop := by
  intro s hs
  obtain ⟨v, stack, h⟩ := List.exists_cons_of_length_pos hs
  rw [MachineM.pop, Act.bind_ok (Act.changeOwn_apply _ ctx s), popped, h]
  exact ⟨by simp, trivial⟩

theorem popMany (n : Nat) : Takes ctx n (popMany n) := by
  intro s hs
  rw [MachineM.popMany, Act.bind_ok (Act.own_apply ctx s), if_neg (by omega),
    Act.bind_ok (Act.setOwn_apply _ ctx s)]
  exact ⟨rfl, trivial⟩

/-! ## Variables and places -/

theorem entry (xs : Array Value) (i : Nat) : Takes ctx 0 (entry xs i) := by
  unfold MachineM.entry
  split
  · exact of_pure trivial
  · exact defect (by simp)

theorem closureRef : Takes ctx 0 closureRef := by
  refine read.bind_keep fun c hc => ?_
  subst hc
  split
  · exact of_pure trivial
  · exact defect (by simp)

theorem loadItem (slot : Nat) : Takes ctx 0 (loadItem slot) := by
  refine closureRef.bind_keep fun c _ => world.bind_keep fun w _ => check ?_
  unfold Closure.get
  split <;> simp

theorem storeItem (slot : Nat) (v : Value) : Takes ctx 0 (storeItem slot v) := by
  refine closureRef.bind_keep fun c _ => world.bind_keep fun w _ => (check ?_).bind_keep fun _ _ => change _
  unfold Closure.set
  split <;> simp

theorem storeArg (i : Nat) (v : Value) : Takes ctx 0 (storeArg i v) :=
  own.bind_keep fun _ _ => ite (fun _ => modifyOwn fun _ => rfl) fun _ => defect (by simp)

theorem storeLocal (i : Nat) (v : Value) : Takes ctx 0 (storeLocal i v) :=
  own.bind_keep fun _ _ => ite (fun _ => modifyOwn fun _ => rfl) fun _ => defect (by simp)

theorem access_read (x : FrameVar) : Takes ctx 0 (access.read x) := by
  cases x with
  | arg i | localVar i => exact own.bind_keep fun _ _ => entry _ i
  | closure slot => exact loadItem slot

theorem access_write (x : FrameVar) (v : Value) : Takes ctx 0 (access.write x v) := by
  cases x with
  | arg i => exact storeArg i v
  | localVar i => exact storeLocal i v
  | closure slot => exact storeItem slot v

theorem loadFieldOf (h : Heap) (r : Value) (i : Nat) : Takes ctx 0 (Act.attempt (h.loadField r i)) := by
  refine attempt ?_
  unfold Heap.loadField
  split <;> (try split) <;> simp

theorem storeFieldOf (h : Heap) (r : Value) (i : Nat) (v : Value) :
    Takes ctx 0 (Act.attempt (h.storeField r i v)) := by
  refine attempt ?_
  unfold Heap.storeField
  split <;> (try split) <;> simp

theorem place_read : ∀ a : Place FrameVar, Takes ctx 0 (a.read access)
  | .root x => access_read x
  | .element a i => by
    refine heap.bind_keep fun h _ => ?_
    split
    · exact of_pure trivial
    · exact raise _
  | .objectField o i => heap.bind_keep fun h _ => loadFieldOf h _ i
  | .field inner i => (place_read inner).bind_keep fun v _ => heap.bind_keep fun h _ => loadFieldOf h v i

theorem place_write : ∀ (a : Place FrameVar) (v : Value), Takes ctx 0 (a.write access v)
  | .root x, v => access_write x v
  | .element _ _, _ => allocate _
  | .objectField _ _, _ => allocate _
  | .field inner i, v =>
    (place_read inner).bind_keep fun r _ => heap.bind_keep fun h _ => (storeFieldOf h r i v).bind_keep
      fun p _ => (setHeap p.2).bind_keep fun _ _ => place_write inner p.1

theorem place_keep (a : Place FrameVar) (v : Value) (r : Except Stop α) : Takes ctx 0 (a.keep access v r) := by
  rcases r with (u | d | _) | x
  · exact place_write a v
  · exact (place_write a v).observe.bind_keep fun _ _ => of_pure trivial
  · exact (place_write a v).observe.bind_keep fun _ _ => of_pure trivial
  · exact place_write a v

theorem update (a : Place FrameVar) {f : Value → MachineM (Value × Except Stop α)}
    (h : ∀ v, Takes ctx 0 (f v) fun p => SafeEnd ctx p.2) : Takes ctx 0 (a.update access f) :=
  (place_read a).bind_keep fun v _ => (h v).bind_keep fun p hp => (place_keep a p.1 p.2).bind_keep
    fun _ _ => ofExcept hp

theorem operand (v : Value) : Takes ctx 0 (operand v) := by
  unfold MachineM.operand
  split
  · exact place_read _
  · exact of_pure trivial

theorem withReceiver (r : Value) {f : Value → MachineM (Value × Except Stop α)}
    (h : ∀ v, Takes ctx 0 (f v) fun p => SafeEnd ctx p.2) : Takes ctx 0 (withReceiver r f) := by
  unfold MachineM.withReceiver
  split
  · exact update _ h
  · exact (h r).bind_keep fun p hp => ofExcept hp

/-! ## Calls -/

theorem hostCall (fn : HostRef) (r : Value) (args : List Value) :
    Takes ctx 0 (hostCall fn r args) fun p => SafeEnd ctx p.2 := by
  refine read.bind_keep fun c hc => ?_
  subst hc
  exact fun s _ => ⟨by simp, fun hs => hs.host _ _ _ _⟩

theorem hostValue (fn : HostRef) (r : Value) (args : List Value) : Takes ctx 0 (hostValue fn r args) := by
  refine read.bind_keep fun c hc => ?_
  subst hc
  refine bind_keep (Q := fun p => SafeEnd c p.2) (fun s _ => ⟨by simp, fun hs => hs.host _ _ _ _⟩) fun p hp => ?_
  exact ofExcept hp

theorem invoke (f : Value) (args : List Value) : Takes ctx 0 (Act.invoke ctx.inv f args) := by
  refine (settle _).bind_keep fun g _ => ?_
  refine bind_keep (Q := SafeEnd ctx) (fun s _ => ⟨by simp, fun hs => hs.invoke _ _ _⟩) fun r hr => ?_
  exact ofExcept hr

theorem storeField (r : Value) (i : Nat) (v : Value) :
    Takes ctx 0 (Act.storeField r i v : MachineM _) fun p => SafeEnd ctx p.2 :=
  heap.bind_keep fun h _ => (storeFieldOf h r i v).bind_keep fun p _ => (setHeap p.2).bind_keep
    fun _ _ => of_pure fun _ => by simp

end Takes

/-! ## Instructions -/

/-- The computation takes `pops` values off the stack and puts `pushes` values there. -/
def Moves (ctx : FrameContext) (pops pushes : Nat) (x : MachineM Unit) : Prop :=
  ∀ s : Frame × World, pops ≤ s.1.stack.length →
    match x ctx s with
    | (.ok _, f, _) => ∃ vs : List Value, vs.length = pushes ∧ f.stack = vs ++ s.1.stack.drop pops
    | (.error stop, f, _) =>
      (∃ k ≤ pops, f.stack = s.1.stack.drop k) ∧ (ctx.CallsSafely → stop ≠ .defect .stackUnderflow)

namespace Moves

theorem push (v : Value) : Moves ctx 0 1 (push v) :=
  fun s _ => ⟨[v], rfl, by simp⟩

variable {n k : Nat} {x : MachineM α} {y : α → MachineM Unit} {Q : α → Prop}

theorem of_takes {x : MachineM Unit} {Q : Unit → Prop} (hx : Takes ctx n x Q) : Moves ctx n 0 x := by
  intro s hs
  have h := hx s hs
  rcases hxs : x ctx s with ⟨e | a, f, w⟩ <;> rw [hxs] at h
  · exact h
  · exact ⟨[], rfl, by simpa using h.1⟩

theorem bind {m : Nat}
    (hx : Takes ctx m x Q) (hy : ∀ a, Q a → Moves ctx n k (y a)) : Moves ctx (m + n) k (x >>= y) := by
  intro s hs
  have h := hx s (by omega)
  rcases hxs : x ctx s with ⟨e | a, f, w⟩ <;> rw [hxs] at h
  · rw [Act.bind_error hxs]
    obtain ⟨⟨j, hj, hf⟩, hu⟩ := h
    exact ⟨⟨j, by omega, hf⟩, hu⟩
  · rw [Act.bind_ok hxs]
    obtain ⟨hf, ha⟩ := h
    have h' := hy a ha (f, w) (by simp only [hf, List.length_drop]; omega)
    rcases hya : y a ctx (f, w) with ⟨e | b, g, v⟩ <;> rw [hya] at h' <;> simp only [hf] at h'
    · obtain ⟨⟨j, hj, hg⟩, hu⟩ := h'
      exact ⟨⟨m + j, by omega, by rw [hg, List.drop_drop]⟩, hu⟩
    · obtain ⟨vs, hvs, hg⟩ := h'
      exact ⟨vs, hvs, by rw [hg, List.drop_drop]⟩

theorem bind_keep (hx : Takes ctx 0 x Q) (hy : ∀ a, Q a → Moves ctx n k (y a)) : Moves ctx n k (x >>= y) := by
  simpa using bind hx hy

/-- A computation that takes all the operands, before the results are put on the stack. -/
theorem bind_last (hx : Takes ctx n x Q) (hy : ∀ a, Q a → Moves ctx 0 k (y a)) : Moves ctx n k (x >>= y) :=
  bind hx hy

/-- A computation that ends by throwing puts nothing on the stack. -/
theorem raise (k : Nat) (c : Cause) : Moves ctx 0 k (Act.raise c) := by
  intro s hs
  rw [Act.raise_apply]
  exact ⟨⟨0, le_rfl, by simp⟩, fun _ => by simp⟩

theorem defect {d : Defect} (k : Nat) (h : d ≠ .stackUnderflow) : Moves ctx 0 k (Act.defect d) :=
  fun _ _ => ⟨⟨0, le_rfl, by simp⟩, fun _ => by simpa using h⟩

theorem ite {c : Prop} [Decidable c] {x y : MachineM Unit} (hx : Moves ctx n k x)
    (hy : Moves ctx n k y) : Moves ctx n k (if c then x else y) := by
  split
  · exact hx
  · exact hy

/-- A step that is only taken under a condition. -/
theorem optional {c : Prop} [Decidable c] {x : MachineM PUnit} {y : MachineM Unit} (hx : Takes ctx 0 x)
    (hy : Moves ctx n k y) : Moves ctx n k (if c then x >>= fun _ => y else y) :=
  ite (bind_keep hx fun _ _ => hy) hy

theorem nothing : Moves ctx 0 0 (pure ()) :=
  of_takes (.of_pure (Q := fun _ => True) trivial)

/-- A computation whose value is put on the stack. -/
theorem bind_push {x : MachineM Value} {Q : Value → Prop} (hx : Takes ctx n x Q) :
    Moves ctx n 1 (x >>= MachineM.push) :=
  bind_last hx fun v _ => push v

theorem unary (f : Value → Except Cause Value) : Moves ctx 1 1 (unary f) :=
  bind_last .pop fun v _ => bind_push (.settle (f v))

theorem binary (f : Value → Value → Except Cause Value) : Moves ctx 2 1 (binary f) :=
  bind (n := 1) .pop fun r _ => bind_last .pop fun l _ => bind_push (.settle (f l r))

theorem dup : Moves ctx 1 2 (effect .dup) := by
  intro s hs
  obtain ⟨v, stack, h⟩ := List.exists_cons_of_length_pos hs
  have htop : top ctx s = (.ok v, s) := by
    rw [top, Act.bind_ok (Act.own_apply ctx s), h]
    rfl
  rw [effect, Act.bind_ok htop]
  exact ⟨[v, v], rfl, by simp [h]⟩

theorem callMethod (m : Method) :
    Moves ctx (Instr.pops (.call m)) (Instr.pushes (.call m)) (callMethod m) := by
  simp only [Instr.pops, Instr.pushes]
  have hlast : ∀ result : Value, Moves ctx 0 (if m.ret.isVoid then 0 else 1)
      (unless m.ret.isVoid do MachineM.push result) := by
    intro result
    split
    · exact nothing
    · exact push result
  refine bind (.popMany _) fun args _ => ?_
  dsimp only
  split
  · exact bind_last (.hostValue _ _ _) fun v _ => hlast v
  · exact bind_last .pop fun r _ => ite (bind_last (.raise _) fun v _ => hlast v)
      (bind_last (.withReceiver r fun v => .hostCall _ v _) fun v _ => hlast v)

theorem invoke (argc : Nat) (returns : Bool) :
    Moves ctx (argc + 1) (if returns then 1 else 0) (effect (.invoke argc returns)) := by
  refine bind (.popMany argc) fun args _ => bind_last .pop fun target _ => bind_keep .read fun c hc => ?_
  subst hc
  refine bind_keep (.invoke target args) fun v _ => ?_
  cases returns with
  | true => exact push v
  | false => exact nothing

theorem loadElemAddr : Moves ctx 2 1 loadElemAddr :=
  bind (n := 1) .pop fun _ _ => bind_last .pop fun _ _ => bind_keep .heap fun _ _ =>
    bind_keep (.settle _) fun _ _ => push _

theorem loadFieldAddr (i : Nat) : Moves ctx 1 1 (loadFieldAddr i) := by
  refine bind_last .pop fun v _ => ?_
  split
  · exact push _
  · exact push _
  · exact raise 1 _
  · exact raise 1 _

theorem loadField (i : Nat) : Moves ctx 1 1 (loadField i) := by
  refine bind_last .pop fun r _ => bind_push (.withReceiver r fun v => ?_)
  exact Takes.bind_keep .heap fun h _ => (Takes.loadFieldOf h v i).bind_keep fun _ _ => .of_pure fun _ => by simp

theorem setProperty (p : Property) : Moves ctx 2 0 (setProperty p) := by
  refine bind (n := 1) .pop fun v _ => bind_last .pop fun r _ => ?_
  split
  · exact defect 0 (by simp)
  · exact bind_keep (.withReceiver r fun w => .hostCall _ w _) fun _ _ => nothing

theorem getIndex (ix : Indexer) : Moves ctx (ix.params.length + 1) 1 (getIndex ix) := by
  refine bind (.popMany _) fun args _ => bind_last .pop fun v _ => bind_keep (.operand v) fun r _ => ?_
  exact optional (.raise _) (bind_push (.hostValue _ _ _))

theorem setIndex (ix : Indexer) : Moves ctx (ix.params.length + 2) 0 (setIndex ix) := by
  rw [show ix.params.length + 2 = 1 + (ix.params.length + 1) by omega]
  refine bind .pop fun v _ => bind (.popMany _) fun args _ => bind_last .pop fun r _ => optional (.raise _) ?_
  split
  · exact defect 0 (by simp)
  · exact bind_keep (.withReceiver r fun w => .hostCall _ w _) fun _ _ => nothing

theorem storeThrough : Moves ctx 2 0 storeThrough := by
  refine bind (n := 1) .pop fun v _ => bind_last .pop fun r _ => ?_
  split
  · exact of_takes (.update _ fun _ => .of_pure fun _ => by simp)
  · exact bind_keep .heap fun _ _ => defect 0 (by simp)

theorem newClosure (l : Layout) : Moves ctx l.size 1 (newClosure l) := by
  refine bind_last (.popMany _) fun items _ => bind_keep (.check ?_) fun c _ => bind_keep (.change _) fun _ _ => push _
  unfold Layout.instantiate
  split <;> (try split) <;> simp

theorem curry : Moves ctx 2 1 curry := by
  refine bind (n := 1) .pop fun closure _ => bind_last .pop fun code _ => ?_
  split
  · exact push _
  · exact bind_keep .heap fun _ _ => defect 1 (by simp)

theorem endFinally : Moves ctx 0 0 endFinally := by
  intro s hs
  rw [MachineM.endFinally, Act.bind_ok (Act.own_apply ctx s)]
  rcases hp : s.1.pending with _ | ⟨_ | exn, pending⟩
  · exact ⟨⟨0, le_rfl, by simp⟩, fun _ => by simp⟩
  · exact ⟨[], rfl, by simp⟩
  · exact ⟨⟨0, le_rfl, by simp⟩, fun _ => by simp⟩

end Moves

theorem takes_throw : Takes ctx 1 (effect .throw) fun _ => False :=
  Takes.bind .pop fun _ _ => Takes.bind_keep (.allocate _) fun _ _ => .throwing _

/-- An instruction that neither branches nor returns pops and pushes as many values as it says. -/
theorem moves_effect (ctx : FrameContext) (i : Instr) (hb : i.target? = none) (hr : i ≠ .ret) :
    Moves ctx i.pops i.pushes (effect i) := by
  cases i with
  | nop => exact .nothing
  | branch kind t => cases hb
  | ret => exact absurd rfl hr
  | const v => exact .push v
  | loadArg i | loadLocal i => exact .bind_keep .own fun _ _ => .bind_push (.entry _ i)
  | storeArg i => exact .bind_last .pop fun v _ => .of_takes (.storeArg i v)
  | loadArgAddr i | loadLocalAddr i | loadItemAddr slot | default ty => exact .push _
  | storeLocal i => exact .bind_last .pop fun v _ => .of_takes (.storeLocal i v)
  | loadItem _ slot => exact .bind_push (.loadItem slot)
  | storeItem _ slot => exact .bind_last .pop fun v _ => .of_takes (.storeItem slot v)
  | unbox ty | castClass ty | negate mode | complement | convert ty mode | unwrap => exact .unary _
  | dup => exact .dup
  | pop => exact .bind_last .pop fun _ _ => .nothing
  | arith op mode | compare op | genericEq => exact .binary _
  | concat | loadElem => exact .bind_keep .heap fun _ _ => .binary _
  | arrayLength => exact .bind_keep .heap fun _ _ => .unary _
  | call m => exact .callMethod m
  | invoke argc returns => exact .invoke argc returns
  | new ctor => exact .bind_last (.popMany _) fun _ _ => .bind_push (.hostValue _ _ _)
  | newArrayOf elem count => exact .bind_last (.popMany _) fun _ _ => .bind_push (.allocate _)
  | newArray elem =>
    refine .bind_last .pop fun length _ => .bind_keep .heap fun h _ => .bind_keep (.attempt ?_)
      fun p _ => .bind_keep (.setHeap _) fun _ _ => .push _
    unfold Heap.newArrayOfLength
    dsimp only
    split <;> (try split) <;> simp
  | storeElem =>
    exact .bind (n := 2) .pop fun _ _ => .bind (n := 1) .pop fun _ _ => .bind_last .pop fun _ _ =>
      .bind_keep .heap fun _ _ => .bind_keep (.settle _) fun _ _ => .of_takes (.setHeap _)
  | loadElemAddr => exact .loadElemAddr
  | loadField i => exact .loadField i
  | storeField i =>
    exact .bind (n := 1) .pop fun v _ => .bind_last .pop fun r _ =>
      .of_takes (.withReceiver r fun w => .storeField w i v)
  | loadFieldAddr i => exact .loadFieldAddr i
  | getProperty p => exact .bind_last .pop fun v _ => .bind_keep (.operand v) fun r _ => .bind_push (.hostValue _ _ _)
  | setProperty p => exact .setProperty p
  | loadStatic s => exact .bind_keep .heap fun _ _ => .push _
  | storeStatic s => exact .bind_last .pop fun v _ => .of_takes (.allocate _)
  | getIndex ix => exact .getIndex ix
  | setIndex ix => exact .setIndex ix
  | storeThrough => exact .storeThrough
  | newClosure l => exact .newClosure l
  | curry => exact .curry
  | throw => exact .of_takes takes_throw
  | enterFinally =>
    exact .of_takes (Takes.modifyOwn (g := fun f => { f with pending := none :: f.pending }) fun _ => rfl)
  | endFinally => exact .endFinally

end MachineM

/-- Where control may go after an instruction. -/
def Flow.Follows (i : Instr) : Flow → Prop
  | .next => i.endsFlow = false
  | .jump pc => i.target? = some pc
  | .ret _ => i = .ret

namespace MachineM

variable {ctx : FrameContext}

theorem takes_takes (kind : BranchKind) (t : Nat) :
    Takes ctx (Instr.branch kind t).pops (takes kind) fun b => kind = .always → b = true := by
  cases kind with
  | always => exact .of_pure fun _ => rfl
  | ifTrue | ifFalse | ifNull => exact Takes.bind .pop fun _ _ => .of_pure (by simp)

theorem takes_branch (kind : BranchKind) (t : Nat) :
    Takes ctx (Instr.branch kind t).pops (exec (.branch kind t)) fun flow => flow.Follows (.branch kind t) := by
  refine Takes.bind (takes_takes kind t) fun b hb => .of_pure ?_
  cases b with
  | true => rfl
  | false => cases kind <;> simp_all [Flow.Follows, Instr.endsFlow]

theorem takes_ret : Takes ctx 1 (exec .ret) fun flow => flow.Follows .ret :=
  Takes.bind .pop fun v _ => .of_pure (a := Flow.ret v) rfl

theorem exec_plain {i : Instr} (hb : i.target? = none) (hr : i ≠ .ret) :
    exec i = (do effect i; return .next) := by
  unfold exec
  split
  · cases hb
  · exact absurd rfl hr
  · rfl

/-- The ends of an instruction: what it leaves on the stack, and where control goes. -/
def Executed (ctx : FrameContext) (i : Instr) (stack : List Value) : Except Stop Flow × Frame × World → Prop
  | (.ok flow, f, _) =>
    flow.Follows i ∧ ∃ vs : List Value, vs.length = i.pushes ∧ f.stack = vs ++ stack.drop i.pops
  | (.error stop, f, _) =>
    (∃ k ≤ i.pops, f.stack = stack.drop k) ∧ (ctx.CallsSafely → stop ≠ .defect .stackUnderflow)

theorem Executed.of_takes {i : Instr} (hp : i.pushes = 0) (h : Takes ctx i.pops (exec i) fun flow => flow.Follows i)
    {s : Frame × World} (hs : i.pops ≤ s.1.stack.length) : Executed ctx i s.1.stack (exec i ctx s) := by
  have h := h s hs
  rcases he : exec i ctx s with ⟨stop | flow, f, w⟩ <;> rw [he] at h
  · exact h
  · exact ⟨h.2, [], by simp [hp], by simpa using h.1⟩

/-- An instruction whose operands are there takes them and leaves its results. -/
theorem executed_exec (ctx : FrameContext) (i : Instr) (s : Frame × World) (hs : i.pops ≤ s.1.stack.length) :
    Executed ctx i s.1.stack (exec i ctx s) := by
  by_cases hb : i.target? = none
  · by_cases hr : i = .ret
    · subst hr
      exact .of_takes rfl takes_ret hs
    · have h := moves_effect ctx i hb hr s hs
      rw [exec_plain hb hr]
      rcases he : effect i ctx s with ⟨stop | u, f, w⟩ <;> rw [he] at h
      · rw [Act.bind_error he]
        exact h
      · rw [Act.bind_ok he]
        refine ⟨?_, h⟩
        -- only a throw ends control here, and it never gets this far
        by_cases hthrow : i = .throw
        · subst hthrow
          have hnever : Takes ctx 1 (effect .throw) fun _ => False := takes_throw
          specialize hnever s hs
          rw [he] at hnever
          exact hnever.2.elim
        · cases i <;> simp_all [Flow.Follows, Instr.endsFlow, Instr.target?]
  · obtain ⟨kind, t, rfl⟩ : ∃ kind t, i = .branch kind t := by cases i <;> simp_all [Instr.target?]
    exact .of_takes rfl (takes_branch kind t) hs

end MachineM

end ExprCompiler
