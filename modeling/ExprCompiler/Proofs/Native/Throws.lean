/-
Where a unit with native code throws. Native code cannot throw, so only instructions that have no cause to
throw should be lowered. Of the instructions that are, the arithmetic ones have one left: lowering follows
the kinds of their operands but does not compare them, and the machine throws where addition, subtraction,
multiplication or negation meets a boolean, or a bitwise operator meets operands of different kinds. The
machine throws there and nowhere else.
-/
import ExprCompiler.Proofs.Machine.Depth
import ExprCompiler.Proofs.Native.Agreement

namespace ExprCompiler

/-! ## Operands -/

/-- A value has a native form. -/
def Value.IsNative (v : Value) : Prop :=
  v.slotKind?.isSome

theorem Value.isNative_iff {v : Value} : v.IsNative ↔ (∃ bits, v = .int ⟨.i64, bits⟩) ∨ ∃ b, v = .bool b := by
  unfold IsNative slotKind?
  split <;> simp_all

theorem Value.isNative_zero {ty : Ty} {k : SlotKind} (h : SlotKind.ofTy? ty = some k) : ty.zero.IsNative := by
  unfold SlotKind.ofTy? at h
  split at h
  · rfl
  · rfl
  · cases h

/-- The machine has a value for an arithmetic instruction on the values of a stack: integers are added,
subtracted, multiplied and negated, and bitwise operators take two values of one kind. -/
def Instr.DefinedOn : Instr → List Value → Prop
  | .arith op _, y :: x :: _ =>
    x.slotKind? = y.slotKind? ∧ (x.slotKind? = some .int ∨ op = .and ∨ op = .or ∨ op = .xor)
  | .negate _, x :: _ => x.slotKind? = some .int
  | _, _ => True

namespace Value

/-- An operator with native form gives a value of a native form where it is defined, and throws elsewhere. -/
theorem arith_native {x y : Value} (hx : x.IsNative) (hy : y.IsNative) {op : ArithOp} {sop : SlotOp}
    (hop : Lower.slotOp op = .ok sop) (mode : Overflow) (vs : List Value) :
    (Instr.DefinedOn (.arith op mode) (y :: x :: vs) ∧ ∃ z, x.arith op y .wrap = .ok z ∧ z.IsNative) ∨
      (¬ Instr.DefinedOn (.arith op mode) (y :: x :: vs) ∧ ∃ c, x.arith op y .wrap = .error c) := by
  rcases isNative_iff.1 hx with ⟨a, rfl⟩ | ⟨a, rfl⟩ <;> rcases isNative_iff.1 hy with ⟨b, rfl⟩ | ⟨b, rfl⟩
  · have hslots : ∀ c : BitVec 64, SlotKind.int.toSlot? (.int ⟨.i64, c⟩) = some (.ofBitVec c) := fun _ => rfl
    obtain ⟨z, hz, hslot⟩ := SlotKind.toSlot?_arith (hslots a) (hslots b) hop (.inl rfl)
    refine .inl ⟨⟨rfl, .inl rfl⟩, z, hz, ?_⟩
    rw [SlotKind.toSlot?_int.1 hslot]
    rfl
  · refine .inr ⟨by simp [Instr.DefinedOn, slotKind?], ?_⟩
    cases op <;> cases hop <;> exact ⟨_, rfl⟩
  · refine .inr ⟨by simp [Instr.DefinedOn, slotKind?], ?_⟩
    cases op <;> cases hop <;> exact ⟨_, rfl⟩
  · -- two booleans have bitwise operators only
    cases op with
    | and | or | xor => exact .inl ⟨⟨rfl, by simp⟩, _, rfl, rfl⟩
    | add | sub | mul => exact .inr ⟨by simp [Instr.DefinedOn, slotKind?], _, rfl⟩
    | _ => cases hop

theorem negate_native {x : Value} (hx : x.IsNative) (mode : Overflow) (vs : List Value) :
    (Instr.DefinedOn (.negate mode) (x :: vs) ∧ ∃ z, x.negate .wrap = .ok z ∧ z.IsNative) ∨
      (¬ Instr.DefinedOn (.negate mode) (x :: vs) ∧ ∃ c, x.negate .wrap = .error c) := by
  rcases isNative_iff.1 hx with ⟨a, rfl⟩ | ⟨b, rfl⟩
  · refine .inl ⟨rfl, .int ⟨.i64, (-UInt64.ofBitVec a).toBitVec⟩, ?_, rfl⟩
    exact congrArg ofWord (Word.negate_i64 (.ofBitVec a))
  · exact .inr ⟨by simp [Instr.DefinedOn, slotKind?], _, rfl⟩

theorem complement_native {x : Value} (hx : x.IsNative) : ∃ z, x.complement = .ok z ∧ z.IsNative := by
  rcases isNative_iff.1 hx with ⟨a, rfl⟩ | ⟨b, rfl⟩
  · exact ⟨_, rfl, rfl⟩
  · exact ⟨_, rfl, rfl⟩

end Value

/-! ## Steps -/

/-- All values of a frame have native forms, and there are as many on the stack as kinds that lowering
follows. -/
structure MachineState.IsNative (u : CodeUnit) (s : MachineState) : Prop where
  kinds : ∃ ks, u.KindsAt s.pc ks ∧ ks.length = s.frame.stack.length
  stack : ∀ v ∈ s.frame.stack, v.IsNative
  args : ∀ v ∈ s.frame.args, v.IsNative
  locals : ∀ v ∈ s.frame.locals, v.IsNative

/-- What a step of a unit with native code comes to. -/
inductive StepCase (u : CodeUnit) (ctx : FrameContext) (s : MachineState) (i : Instr) : Prop
  | goes (t : MachineState) (defined : i.DefinedOn s.frame.stack) (now : u.step ctx s = .running t)
    (native : t.IsNative u)
  | returns (v : Value) (w : World) (defined : i.DefinedOn s.frame.stack) (now : u.step ctx s = .finished (.ok v) w)
  | defect (d : Defect) (w : World) (defined : i.DefinedOn s.frame.stack)
    (now : u.step ctx s = .finished (.error (.defect d)) w)
  | throws (v : Value) (w : World) (undefined : ¬ i.DefinedOn s.frame.stack)
    (now : u.step ctx s = .finished (.error (.thrown v)) w)

namespace NativeCode.Renders

variable {code : NativeCode} {u : CodeUnit} {depths : Depths} {params locals : List SlotKind}
  (hr : code.Renders u depths params locals)

include hr

theorem step_cases (hh : u.handlers = []) (ctx : FrameContext)
    {s : MachineState} (h : s.IsNative u) : ∃ i, u.instrs[s.pc]? = some i ∧ StepCase u ctx s i := by
  obtain ⟨pc, ⟨args, vars, stack, pending⟩, w⟩ := s
  obtain ⟨⟨ks, hpc, hlen⟩, hstack, hargs, hlocals⟩ := h
  simp only at hpc hlen hstack hargs hlocals
  obtain ⟨i, op, ks', hi, -, hstands⟩ := hr.ops pc ks hpc
  have hafter := hstands.kindsAfter hr.ofParams hr.ofLocals
  refine ⟨i, hi, ?_⟩
  -- an instruction that neither branches nor returns
  have hplain : ∀ {f' : Frame}, i.target? = none ∧ i.endsFlow = false →
      i.DefinedOn stack → MachineM.effect i ctx (⟨args, vars, stack, pending⟩, w) = (.ok (), f', w) →
      f'.stack.length = ks'.length → (∀ v ∈ f'.stack, v.IsNative) → (∀ v ∈ f'.args, v.IsNative) →
      (∀ v ∈ f'.locals, v.IsNative) → StepCase u ctx ⟨pc, ⟨args, vars, stack, pending⟩, w⟩ i := by
    rintro f' ⟨htarget, hgoes⟩ hdef heffect hlen' hst ha hl
    have hret : i ≠ .ret := by
      rintro rfl
      cases hgoes
    refine .goes ⟨pc + 1, f', w⟩ hdef ?_ ⟨⟨ks', hpc.next hi hgoes hafter, hlen'.symm⟩, hst, ha, hl⟩
    simp only [CodeUnit.step, hi, MachineM.exec_plain htarget hret, Act.bind_ok heffect, Act.pure_apply]
  -- one that ends by a failure
  have hfails : ∀ {stop : Stop} {f : Frame} {w' : World}, i.target? = none ∧ i.endsFlow = false →
      MachineM.effect i ctx (⟨args, vars, stack, pending⟩, w) = (.error stop, f, w') →
      u.step ctx ⟨pc, ⟨args, vars, stack, pending⟩, w⟩ = .finished (.error stop) w' := by
    rintro stop f w' ⟨htarget, hgoes⟩ heffect
    have hret : i ≠ .ret := by
      rintro rfl
      cases hgoes
    simp only [CodeUnit.step, hi, MachineM.exec_plain htarget hret, Act.bind_error heffect]
    cases stop <;> simp [hh]
  -- one that replaces its operands by the outcome of an operation
  have hoperation : ∀ {r : Except Cause Value} {vs : List Value}, i.target? = none ∧ i.endsFlow = false →
      MachineM.effect i ctx (⟨args, vars, stack, pending⟩, w) =
        (Act.settle r >>= MachineM.push) ctx (⟨args, vars, vs, pending⟩, w) →
      (i.DefinedOn stack ∧ ∃ z, r = .ok z ∧ z.IsNative) ∨ (¬ i.DefinedOn stack ∧ ∃ c, r = .error c) →
      vs.length + 1 = ks'.length → (∀ v ∈ vs, v.IsNative) → StepCase u ctx ⟨pc, ⟨args, vars, stack, pending⟩, w⟩ i := by
    rintro r vs hflow heffect (⟨hdef, z, rfl, hz⟩ | ⟨hundef, c, rfl⟩) hlen' hvs
    · exact hplain hflow hdef heffect hlen' (List.forall_mem_cons.2 ⟨hz, hvs⟩) hargs hlocals
    · exact .throws _ _ hundef (hfails hflow (heffect.trans (Act.bind_error (Act.settle_apply _ ctx _) _)))
  -- one that tests the topmost value
  have hbranch : ∀ {kind : BranchKind} {t : Nat} {vs : List Value} {taken : Bool}, i = .branch kind t →
      (Instr.branch kind t).endsFlow = false →
      MachineM.takes kind ctx (⟨args, vars, stack, pending⟩, w) = (.ok taken, ⟨args, vars, vs, pending⟩, w) →
      vs.length = ks'.length → (∀ v ∈ vs, v.IsNative) → StepCase u ctx ⟨pc, ⟨args, vars, stack, pending⟩, w⟩ i := by
    rintro kind t vs taken rfl hgoes htakes hlen' hvs
    have hpc' : u.KindsAt (if taken then t else pc + 1) ks' := by
      cases taken
      · exact hpc.next hi hgoes hafter
      · exact hpc.jump hi hafter
    refine .goes ⟨if taken then t else pc + 1, ⟨args, vars, vs, pending⟩, w⟩ trivial ?_
      ⟨⟨ks', hpc', hlen'.symm⟩, hvs, hargs, hlocals⟩
    simp only [CodeUnit.step, hi, MachineM.exec, Act.bind_ok htakes, Act.pure_apply]
    cases taken <;> rfl
  -- what a stack of native values holds
  have hcons : ∀ {v : Value} {vs : List Value}, v.IsNative → (∀ x ∈ vs, x.IsNative) → ∀ x ∈ v :: vs, x.IsNative :=
    fun hv hvs => List.forall_mem_cons.2 ⟨hv, hvs⟩
  have htop : ∀ {k : SlotKind} {rest : List SlotKind}, ks = k :: rest →
      ∃ v vs, stack = v :: vs ∧ vs.length = rest.length ∧ v.IsNative ∧ ∀ x ∈ vs, x.IsNative := by
    rintro k rest rfl
    cases stack with
    | nil => simp at hlen
    | cons v vs =>
      obtain ⟨hv, hvs⟩ := List.forall_mem_cons.1 hstack
      exact ⟨v, vs, rfl, by simpa using hlen.symm, hv, hvs⟩
  have hpair : ∀ {k k' : SlotKind} {rest : List SlotKind}, ks = k :: k' :: rest →
      ∃ y x vs, stack = y :: x :: vs ∧ vs.length = rest.length ∧ y.IsNative ∧ x.IsNative ∧ ∀ v ∈ vs, v.IsNative := by
    intro k k' rest hks
    obtain ⟨y, _, rfl, hvs, hy, hrest⟩ := htop hks
    obtain ⟨x, vs, rfl⟩ := List.exists_cons_of_length_eq_add_one hvs
    obtain ⟨hx, hrest⟩ := List.forall_mem_cons.1 hrest
    exact ⟨y, x, vs, rfl, by simpa using hvs, hy, hx, hrest⟩
  cases hstands with
  | nop => exact hplain ⟨rfl, rfl⟩ trivial rfl hlen.symm hstack hargs hlocals
  | int | bool => exact hplain ⟨rfl, rfl⟩ trivial rfl (by simpa using hlen.symm) (hcons rfl hstack) hargs hlocals
  | zero kind =>
    exact hplain ⟨rfl, rfl⟩ trivial rfl (by simpa using hlen.symm) (hcons (Value.isNative_zero kind) hstack)
      hargs hlocals
  | @loadArg i k ks kind =>
    rcases hv : args[i]? with _ | v
    · refine .defect (.outOfBounds args.size i) w trivial (hfails ⟨rfl, rfl⟩ (f := ⟨args, vars, stack, pending⟩) ?_)
      rw [MachineM.effect, Act.bind_ok (Act.own_apply ctx _)]
      simp only [MachineM.entry, hv]
      rfl
    · exact hplain ⟨rfl, rfl⟩ trivial (MachineM.effect_loadArg hv) (by simpa using hlen.symm)
        (hcons (hargs v (Array.mem_of_getElem? hv)) hstack) hargs hlocals
  | @loadLocal i k ks kind =>
    rcases hv : vars[i]? with _ | v
    · refine .defect (.outOfBounds vars.size i) w trivial (hfails ⟨rfl, rfl⟩ (f := ⟨args, vars, stack, pending⟩) ?_)
      rw [MachineM.effect, Act.bind_ok (Act.own_apply ctx _)]
      simp only [MachineM.entry, hv]
      rfl
    · exact hplain ⟨rfl, rfl⟩ trivial (MachineM.effect_loadLocal hv) (by simpa using hlen.symm)
        (hcons (hlocals v (Array.mem_of_getElem? hv)) hstack) hargs hlocals
  | @storeArg i k ks =>
    obtain ⟨v, vs, rfl, hvs, hv, hrest⟩ := htop rfl
    by_cases hi' : i < args.size
    · refine hplain ⟨rfl, rfl⟩ trivial (MachineM.effect_storeArg rfl hi') hvs hrest ?_ hlocals
      intro x hx
      rcases Array.mem_or_eq_of_mem_setIfInBounds hx with hx | rfl
      · exact hargs x hx
      · exact hv
    · refine .defect (.outOfBounds args.size i) w trivial (hfails ⟨rfl, rfl⟩ (f := ⟨args, vars, vs, pending⟩) ?_)
      show (if i < args.size then _ else _ : MachineM Unit) ctx _ = _
      rw [if_neg hi']
      rfl
  | @storeLocal i k ks =>
    obtain ⟨v, vs, rfl, hvs, hv, hrest⟩ := htop rfl
    by_cases hi' : i < vars.size
    · refine hplain ⟨rfl, rfl⟩ trivial (MachineM.effect_storeLocal rfl hi') hvs hrest hargs ?_
      intro x hx
      rcases Array.mem_or_eq_of_mem_setIfInBounds hx with hx | rfl
      · exact hlocals x hx
      · exact hv
    · refine .defect (.outOfBounds vars.size i) w trivial (hfails ⟨rfl, rfl⟩ (f := ⟨args, vars, vs, pending⟩) ?_)
      show (if i < vars.size then _ else _ : MachineM Unit) ctx _ = _
      rw [if_neg hi']
      rfl
  | dup =>
    obtain ⟨v, vs, rfl, hvs, hv, hrest⟩ := htop rfl
    exact hplain ⟨rfl, rfl⟩ trivial rfl (by simpa using hvs) (hcons hv hstack) hargs hlocals
  | pop =>
    obtain ⟨v, vs, rfl, hvs, hv, hrest⟩ := htop rfl
    exact hplain ⟨rfl, rfl⟩ trivial rfl hvs hrest hargs hlocals
  | @arith op sop k k' ks same =>
    obtain ⟨y, x, vs, rfl, hvs, hy, hx, hrest⟩ := hpair rfl
    exact hoperation ⟨rfl, rfl⟩ rfl (Value.arith_native hx hy same .wrap vs) (by simpa using hvs) hrest
  | @negate k ks =>
    obtain ⟨x, vs, rfl, hvs, hx, hrest⟩ := htop rfl
    exact hoperation ⟨rfl, rfl⟩ rfl (Value.negate_native hx .wrap vs) (by simpa using hvs) hrest
  | flip | complement =>
    obtain ⟨x, vs, rfl, hvs, hx, hrest⟩ := htop rfl
    exact hoperation ⟨rfl, rfl⟩ rfl (.inl ⟨trivial, Value.complement_native hx⟩) (by simpa using hvs) hrest
  | @compare op k k' ks =>
    obtain ⟨y, x, vs, rfl, hvs, hy, hx, hrest⟩ := hpair rfl
    exact hoperation ⟨rfl, rfl⟩ rfl (.inl ⟨trivial, .bool (x.compareBy op y), rfl, rfl⟩) (by simpa using hvs) hrest
  | @genericEq k k' ks =>
    obtain ⟨y, x, vs, rfl, hvs, hy, hx, hrest⟩ := hpair rfl
    exact hoperation ⟨rfl, rfl⟩ rfl (.inl ⟨trivial, .bool (x.same y), rfl, rfl⟩) (by simpa using hvs) hrest
  | jump =>
    refine .goes ⟨_, ⟨args, vars, stack, pending⟩, w⟩ trivial ?_ ⟨⟨_, hpc.jump hi hafter, hlen⟩, hstack, hargs, hlocals⟩
    simp only [CodeUnit.step, hi]
    rfl
  | @jumpIf t k ks | @jumpUnless t k ks =>
    obtain ⟨v, vs, rfl, hvs, -, hrest⟩ := htop rfl
    exact hbranch rfl rfl rfl hvs hrest
  | @ret k ks =>
    obtain ⟨v, vs, rfl, hvs, hv, hrest⟩ := htop rfl
    refine .returns v w trivial ?_
    simp only [CodeUnit.step, hi]
    rfl

/-! ## Runs -/

/-- All states of a run have native forms only. -/
theorem isNative_reaches (hh : u.handlers = []) {ctx : FrameContext}
    {s t : MachineState} (hs : s.IsNative u) (h : u.Reaches ctx s t) : t.IsNative u := by
  induction h with
  | refl => exact hs
  | tail _ hstep ih =>
    obtain ⟨i, -, hcase⟩ := hr.step_cases hh ctx ih
    cases hcase with
    | goes t' _ now native =>
      obtain rfl := Progress.running.inj (now.symm.trans hstep)
      exact native
    | returns v w _ now | defect d w _ now | throws v w _ now => cases now.symm.trans hstep

/-- A run that ends by an exception has come to an instruction that is not defined on its operands. -/
theorem undefined_of_throws (hh : u.handlers = []) (ctx : FrameContext) :
    ∀ (fuel : Nat) {s : MachineState} {v : Value}, s.IsNative u → (u.run ctx fuel s).1 = .error (.thrown v) →
      ∃ t i, u.Reaches ctx s t ∧ u.instrs[t.pc]? = some i ∧ ¬ i.DefinedOn t.frame.stack
  | 0, s, v, _, h => by cases h
  | fuel + 1, s, v, hs, h => by
    obtain ⟨i, hi, hcase⟩ := hr.step_cases hh ctx hs
    rw [CodeUnit.run] at h
    cases hcase with
    | goes t _ now native =>
      rw [now] at h
      obtain ⟨t', i', hreach, hi', hundef⟩ := undefined_of_throws hh ctx fuel native h
      exact ⟨t', i', .head now hreach, hi', hundef⟩
    | returns v w _ now | defect d w _ now =>
      rw [now] at h
      cases h
    | throws v w undefined _ => exact ⟨s, i, .refl, hi, undefined⟩

/-- A run that comes to an instruction that is not defined on its operands ends by an exception. -/
theorem throws_of_undefined (hh : u.handlers = []) {ctx : FrameContext}
    {s t : MachineState} (hs : s.IsNative u) (h : u.Reaches ctx s t) {i : Instr} (hi : u.instrs[t.pc]? = some i)
    (hundef : ¬ i.DefinedOn t.frame.stack) : ∃ fuel v, (u.run ctx fuel s).1 = .error (.thrown v) := by
  induction h using Relation.ReflTransGen.head_induction_on with
  | refl =>
    obtain ⟨j, hj, hcase⟩ := hr.step_cases hh ctx hs
    obtain rfl := Option.some.inj (hj.symm.trans hi)
    cases hcase with
    | throws v w _ now => exact ⟨1, v, by rw [CodeUnit.run, now]⟩
    | goes _ defined | returns _ _ defined | defect _ _ defined => exact absurd defined hundef
  | head hstep _ ih =>
    obtain ⟨fuel, v, hrun⟩ := ih (hr.isNative_reaches hh hs (.single hstep))
    exact ⟨fuel + 1, v, by rw [CodeUnit.run, show u.step ctx _ = _ from hstep]; exact hrun⟩

/-- A call starts with native forms only. -/
theorem start_isNative {args : List Value}
    (hargs : args.map Value.slotKind? = u.params.map SlotKind.ofTy?) (w : World) :
    MachineState.IsNative u ⟨0, u.frame none args, w⟩ := by
  have hkinds : ∀ {tys : List Ty} {ks : List SlotKind}, tys.mapM SlotKind.ofTy? = some ks →
      ∀ ty ∈ tys, ∃ k, SlotKind.ofTy? ty = some k := by
    intro tys ks hks ty hty
    obtain ⟨n, hn⟩ := List.getElem?_of_mem hty
    have hlt := (List.getElem?_eq_some_iff.1 hn).1
    rw [← Lower.length_of_mapM hks] at hlt
    have hget := Lower.getElem?_of_mapM hks n
    rw [List.getElem?_eq_getElem hlt, hn] at hget
    exact ⟨_, hget.symm⟩
  refine ⟨⟨[], .start, rfl⟩, by simp [CodeUnit.frame], fun v hv => ?_, fun v hv => ?_⟩
  · obtain ⟨ty, hty, hk⟩ : ∃ ty ∈ u.params, SlotKind.ofTy? ty = v.slotKind? := by
      have : v.slotKind? ∈ args.map Value.slotKind? := List.mem_map_of_mem (by simpa [CodeUnit.frame] using hv)
      rw [hargs] at this
      exact List.mem_map.1 this
    obtain ⟨k, hk'⟩ := hkinds hr.ofParams ty hty
    rw [Value.IsNative, ← hk, hk']
    rfl
  · obtain ⟨ty, hty, rfl⟩ : ∃ ty ∈ u.locals, ty.zero = v := by simpa [CodeUnit.frame] using hv
    obtain ⟨k, hk⟩ := hkinds hr.ofLocals ty (by simpa using hty)
    exact Value.isNative_zero hk

end NativeCode.Renders

namespace CodeUnit

/-- Units with protected regions are not lowered. -/
theorem lower_handlers {u : CodeUnit} {limit : Nat} {code : NativeCode} (h : u.lower limit = .ok (.native code)) :
    u.handlers = [] := by
  unfold lower at h
  split at h
  · cases h
  · rename_i hplain
    simpa using (Bool.or_eq_false_iff.1 (Bool.eq_false_iff.2 hplain)).2

/-- The runs of a unit with native code, on arguments of the native kinds. The machine ends by an exception
exactly if it comes to an addition, subtraction, multiplication or negation of a boolean, or to a bitwise
operator on operands of different kinds; no other instruction that was lowered can throw. -/
theorem lower_throws_iff {u : CodeUnit} {limit : Nat} {code : NativeCode} (h : u.lower limit = .ok (.native code))
    {args : List Value} (hargs : args.map Value.slotKind? = u.params.map SlotKind.ofTy?) (lib : Library) (inv : Invoker)
    (w : World) :
    (∃ fuel v, (u.interpret ⟨lib, inv, none⟩ fuel args w).1 = .error (.thrown v)) ↔
      ∃ t i, u.Reaches ⟨lib, inv, none⟩ ⟨0, u.frame none args, w⟩ t ∧ u.instrs[t.pc]? = some i ∧
        ¬ i.DefinedOn t.frame.stack := by
  obtain ⟨depths, params, locals, hr⟩ := lower_renders h
  have hh := lower_handlers h
  have hstart := hr.start_isNative hargs w
  constructor
  · rintro ⟨fuel, v, hrun⟩
    exact hr.undefined_of_throws hh _ fuel hstart hrun
  · rintro ⟨t, i, hreach, hi, hundef⟩
    exact hr.throws_of_undefined hh hstart hreach hi hundef

/-- Adds a boolean to itself. -/
def doubledFlag : CodeUnit where
  name := "doubledFlag"
  params := [.bool]
  ret := .bool
  layout := none
  locals := #[]
  instrs := #[.loadArg 0, .dup, .arith .add .wrap, .ret]
  handlers := []
  maxStack := 2
  native := none

/-- Addition of booleans is lowered, and the machine throws on it. -/
theorem doubledFlag_throws :
    ∃ code, doubledFlag.lower 4096 = .ok (.native code) ∧ ∀ lib inv w, ∃ v,
      (doubledFlag.interpret ⟨lib, inv, none⟩ 3 [.bool true] w).1 = .error (.thrown v) :=
  ⟨_, rfl, fun _ _ _ => ⟨_, rfl⟩⟩

theorem lower_throws_iff_doubledFlag :
    (∃ code, doubledFlag.lower 4096 = .ok (.native code)) ∧ ∀ lib inv w, ∃ t i,
      doubledFlag.Reaches ⟨lib, inv, none⟩ ⟨0, doubledFlag.frame none [.bool true], w⟩ t ∧
        doubledFlag.instrs[t.pc]? = some i ∧ ¬ i.DefinedOn t.frame.stack := by
  obtain ⟨code, hcode⟩ : ∃ code, doubledFlag.lower 4096 = .ok (.native code) := ⟨_, rfl⟩
  exact ⟨⟨code, hcode⟩, fun lib inv w => (lower_throws_iff hcode rfl lib inv w).1 ⟨3, _, rfl⟩⟩

end CodeUnit

end ExprCompiler
