/-
Native code agrees with the machine. A slot stands for a value of its kind: an integer is its bits and a
boolean is 0 or 1, never another slot. On a unit whose kinds are consistent each native step does to the
slots what the machine's step does to the values, so both runs take the same way, loops included, and end
together.
-/
import ExprCompiler.Proofs.Machine.Stack
import ExprCompiler.Proofs.Native.Kinds

namespace ExprCompiler

/-! ## Values and their slots -/

namespace SlotKind

variable {v : Value}

theorem toSlot?_int {b : UInt64} : int.toSlot? v = some b ↔ v = .int ⟨.i64, b.toBitVec⟩ := by
  constructor
  · intro h
    unfold toSlot? at h
    split at h
    · cases h
      rfl
    · simp_all
    · cases h
  · rintro rfl
    rfl

theorem toSlot?_bool {b : UInt64} :
    bool.toSlot? v = some b ↔ ∃ x : Bool, v = .bool x ∧ b = if x then 1 else 0 := by
  constructor
  · intro h
    unfold toSlot? at h
    split at h
    · simp_all
    · cases h
      exact ⟨_, rfl, rfl⟩
    · cases h
  · rintro ⟨x, rfl, rfl⟩
    rfl

/-- A slot stands for one value only. -/
theorem ofSlot_of_toSlot? {k : SlotKind} {b : UInt64} (h : k.toSlot? v = some b) : k.ofSlot b = v := by
  cases k with
  | int => rw [toSlot?_int.1 h]; rfl
  | bool =>
    obtain ⟨x, rfl, rfl⟩ := toSlot?_bool.1 h
    cases x <;> rfl

theorem isSome_toSlot? {k : SlotKind} (h : v.slotKind? = some k) : (k.toSlot? v).isSome := by
  unfold Value.slotKind? at h
  split at h
  · cases h
    rfl
  · cases h
    rfl
  · cases h

theorem toSlot?_zero {ty : Ty} {k : SlotKind} (h : ofTy? ty = some k) : k.toSlot? ty.zero = some 0 := by
  unfold ofTy? at h
  split at h
  · cases h
    rfl
  · cases h
    rfl
  · cases h

end SlotKind

/-! ## Operations -/

namespace Word

theorem value_i64 (a : BitVec 64) : (⟨.i64, a⟩ : Word).value = a.toInt := by
  rw [value, readAs_eq]
  rfl

theorem settle_i64 (n : Int) : settle false .i64 n = .ok ⟨.i64, .ofInt 64 n⟩ := by
  rw [settle, ofInt_eq]
  rfl

theorem bitwise_i64 {f : Nat → Nat → Nat} {g : UInt64 → UInt64 → UInt64}
    (h : ∀ a b, (g a b).toNat = f a.toNat b.toNat) (a b : UInt64) :
    bitwise f ⟨.i64, a.toBitVec⟩ ⟨.i64, b.toBitVec⟩ = ⟨.i64, (g a b).toBitVec⟩ := by
  rw [bitwise, ofNat_eq]
  congr 1
  apply BitVec.eq_of_toNat_eq
  have hlt : f a.toNat b.toNat < 2 ^ 64 := h a b ▸ (g a b).toNat_lt
  have hmod : (BitVec.ofNat 64 (f a.toNat b.toNat)).toNat = (g a b).toNat := by
    rw [BitVec.toNat_ofNat, Nat.mod_eq_of_lt hlt, h]
  exact hmod

/-- Unchecked arithmetic is that of the bits. -/
theorem arith_i64 {op : ArithOp} {sop : SlotOp} (h : Lower.slotOp op = .ok sop) (a b : UInt64) :
    (⟨.i64, a.toBitVec⟩ : Word).arith op ⟨.i64, b.toBitVec⟩ .wrap = .ok ⟨.i64, (sop.apply a b).toBitVec⟩ := by
  cases op <;> cases h
  case add =>
    show settle false .i64 (value ⟨.i64, a.toBitVec⟩ + value ⟨.i64, b.toBitVec⟩) = _
    rw [settle_i64, value_i64, value_i64, BitVec.ofInt_add]
    simp [SlotOp.apply]
  case sub =>
    show settle false .i64 (value ⟨.i64, a.toBitVec⟩ - value ⟨.i64, b.toBitVec⟩) = _
    rw [settle_i64, value_i64, value_i64]
    simp [SlotOp.apply, Int.sub_eq_add_neg, BitVec.sub_eq_add_neg, BitVec.ofInt_add, BitVec.ofInt_neg]
  case mul =>
    show settle false .i64 (value ⟨.i64, a.toBitVec⟩ * value ⟨.i64, b.toBitVec⟩) = _
    rw [settle_i64, value_i64, value_i64, BitVec.ofInt_mul]
    simp [SlotOp.apply]
  case and => exact congrArg Except.ok (bitwise_i64 UInt64.toNat_and a b)
  case or => exact congrArg Except.ok (bitwise_i64 UInt64.toNat_or a b)
  case xor => exact congrArg Except.ok (bitwise_i64 UInt64.toNat_xor a b)

theorem negate_i64 (a : UInt64) : (⟨.i64, a.toBitVec⟩ : Word).negate .wrap = .ok ⟨.i64, (-a).toBitVec⟩ := by
  show settle false .i64 (0 - Word.value _) = _
  rw [settle_i64, value_i64]
  simp [BitVec.ofInt_neg]

end Word

namespace SlotOp

/-- The signed order of slots is the order of the numbers. -/
theorem compare_i64 (op : CmpOp) (a b : UInt64) :
    Value.compareBy op (.int ⟨.i64, a.toBitVec⟩) (.int ⟨.i64, b.toBitVec⟩) = (compare op a b != 0) := by
  have hord : Ord.compare (⟨.i64, a.toBitVec⟩ : Word).value (⟨.i64, b.toBitVec⟩ : Word).value =
      Ord.compare a.toInt64 b.toInt64 := by
    rw [Word.value_i64, Word.value_i64]
    show compareOfLessAndEq a.toInt64.toInt b.toInt64.toInt = compareOfLessAndEq a.toInt64 b.toInt64
    simp only [compareOfLessAndEq, Int64.lt_iff_toInt_lt, Int64.toInt_inj]
  show op.holds (some (Ord.compare (⟨.i64, a.toBitVec⟩ : Word).value (⟨.i64, b.toBitVec⟩ : Word).value)) = _
  rw [hord, compare]
  split <;> simp_all

theorem compare_bool (op : CmpOp) (x y : Bool) :
    Value.compareBy op (.bool x) (.bool y) = (compare op (if x then 1 else 0) (if y then 1 else 0) != 0) := by
  cases x <;> cases y <;> cases op <;> rfl

/-- A comparison leaves 0 or 1. -/
theorem toSlot?_compare (op : CmpOp) (a b : UInt64) :
    SlotKind.bool.toSlot? (.bool (compare op a b != 0)) = some (compare op a b) := by
  unfold compare
  split <;> rfl

end SlotOp

/-- Operators with native form do to two values of one kind what the slot operation does to their slots. -/
theorem SlotKind.toSlot?_arith {k : SlotKind} {x y : Value} {a b : UInt64} (hx : k.toSlot? x = some a)
    (hy : k.toSlot? y = some b) {op : ArithOp} {sop : SlotOp} (hop : Lower.slotOp op = .ok sop)
    (hk : k = .int ∨ op = .and ∨ op = .or ∨ op = .xor) :
    ∃ z, x.arith op y .wrap = .ok z ∧ k.toSlot? z = some (sop.apply a b) := by
  cases k with
  | int =>
    rw [toSlot?_int.1 hx, toSlot?_int.1 hy]
    refine ⟨.int ⟨.i64, (sop.apply a b).toBitVec⟩, ?_, rfl⟩
    have hshift : op.isShift = false := by
      cases op with
      | shl | shr => cases hop
      | _ => rfl
    unfold Value.arith
    rw [if_neg (by simp [hshift])]
    simp only [if_true, Word.arith_i64 hop, Value.ofWord]
  | bool =>
    obtain ⟨x, rfl, rfl⟩ := toSlot?_bool.1 hx
    obtain ⟨y, rfl, rfl⟩ := toSlot?_bool.1 hy
    rcases hk with hk | rfl | rfl | rfl
    · cases hk
    all_goals cases hop; cases x <;> cases y <;> exact ⟨_, rfl, rfl⟩

theorem SlotKind.toSlot?_compareBy {k : SlotKind} {x y : Value} {a b : UInt64} (hx : k.toSlot? x = some a)
    (hy : k.toSlot? y = some b) (op : CmpOp) :
    SlotKind.bool.toSlot? (.bool (x.compareBy op y)) = some (SlotOp.compare op a b) := by
  rw [← SlotOp.toSlot?_compare]
  cases k with
  | int => rw [toSlot?_int.1 hx, toSlot?_int.1 hy, SlotOp.compare_i64]
  | bool =>
    obtain ⟨x, rfl, rfl⟩ := toSlot?_bool.1 hx
    obtain ⟨y, rfl, rfl⟩ := toSlot?_bool.1 hy
    rw [SlotOp.compare_bool]

/-- Generic equality of two values of one kind is their comparison. -/
theorem SlotKind.same_eq_compareBy {k : SlotKind} {x y : Value} {a b : UInt64} (hx : k.toSlot? x = some a)
    (hy : k.toSlot? y = some b) : x.same y = x.compareBy .eq y := by
  cases k with
  | int =>
    rw [toSlot?_int.1 hx, toSlot?_int.1 hy]
    show ((⟨.i64, a.toBitVec⟩ : Word) == ⟨.i64, b.toBitVec⟩) =
      (some (compare (⟨.i64, a.toBitVec⟩ : Word).value (⟨.i64, b.toBitVec⟩ : Word).value) == some .eq)
    rw [Word.value_i64, Word.value_i64, Bool.eq_iff_iff]
    simp [BitVec.toInt_inj]
  | bool =>
    obtain ⟨x, rfl, rfl⟩ := toSlot?_bool.1 hx
    obtain ⟨y, rfl, rfl⟩ := toSlot?_bool.1 hy
    cases x <;> cases y <;> rfl

/-! ## Lists of slots -/

namespace NativeCode

variable {k : SlotKind} {ks : List SlotKind} {v : Value} {vs : List Value} {b : UInt64} {bs : List UInt64}

theorem slots?_cons (hv : k.toSlot? v = some b) (hs : slots? ks vs = some bs) :
    slots? (k :: ks) (v :: vs) = some (b :: bs) := by
  simp [slots?, hv, hs]

theorem slots?_cons_inv (h : slots? (k :: ks) vs = some bs) :
    ∃ v vs' b bs', vs = v :: vs' ∧ bs = b :: bs' ∧ k.toSlot? v = some b ∧ slots? ks vs' = some bs' := by
  cases vs with
  | nil => cases h
  | cons v vs =>
    obtain ⟨b, hb, h⟩ := Option.bind_eq_some_iff.1 h
    obtain ⟨bs', hbs, h⟩ := Option.bind_eq_some_iff.1 h
    cases h
    exact ⟨v, vs, b, bs', rfl, rfl, hb, hbs⟩

theorem slots?_nil_inv (h : slots? [] vs = some bs) : vs = [] ∧ bs = [] := by
  cases vs with
  | nil => cases h; exact ⟨rfl, rfl⟩
  | cons v vs => cases h

theorem slots?_length (h : slots? ks vs = some bs) : vs.length = ks.length ∧ bs.length = ks.length := by
  induction ks generalizing vs bs with
  | nil => obtain ⟨rfl, rfl⟩ := slots?_nil_inv h; exact ⟨rfl, rfl⟩
  | cons k ks ih =>
    obtain ⟨v, vs, b, bs, rfl, rfl, -, h⟩ := slots?_cons_inv h
    simpa using ih h

theorem slots?_getElem? (h : slots? ks vs = some bs) {i : Nat} (hk : ks[i]? = some k) :
    ∃ v b, vs[i]? = some v ∧ bs[i]? = some b ∧ k.toSlot? v = some b := by
  induction ks generalizing vs bs i with
  | nil => simp at hk
  | cons k' ks ih =>
    obtain ⟨v, vs, b, bs, rfl, rfl, hv, h⟩ := slots?_cons_inv h
    cases i with
    | zero =>
      simp only [List.getElem?_cons_zero, Option.some.injEq] at hk
      subst hk
      exact ⟨v, b, rfl, rfl, hv⟩
    | succ i => exact ih h hk

theorem slots?_set (h : slots? ks vs = some bs) {i : Nat} (hk : ks[i]? = some k) (hv : k.toSlot? v = some b) :
    slots? ks (vs.set i v) = some (bs.set i b) := by
  induction ks generalizing vs bs i with
  | nil => simp at hk
  | cons k' ks ih =>
    obtain ⟨v', vs, b', bs, rfl, rfl, hv', h⟩ := slots?_cons_inv h
    cases i with
    | zero =>
      simp only [List.getElem?_cons_zero, Option.some.injEq] at hk
      subst hk
      exact slots?_cons hv h
    | succ i => exact slots?_cons hv' (ih h hk)

theorem slots?_zeros {tys : List Ty} (h : tys.mapM SlotKind.ofTy? = some ks) :
    slots? ks (tys.map Ty.zero) = some (List.replicate ks.length 0) := by
  induction tys generalizing ks with
  | nil =>
    cases h
    rfl
  | cons ty tys ih =>
    obtain ⟨k, ks', hk, hks, rfl⟩ := Lower.mapM_cons_inv h
    exact slots?_cons (SlotKind.toSlot?_zero hk) (ih hks)

theorem isSome_slots? {args : List Value} (h : args.map Value.slotKind? = ks.map some) : (slots? ks args).isSome := by
  induction ks generalizing args with
  | nil =>
    obtain rfl : args = [] := by simpa using h
    rfl
  | cons k ks ih =>
    cases args with
    | nil => simp at h
    | cons v vs =>
      simp only [List.map_cons, List.cons.injEq] at h
      obtain ⟨b, hb⟩ := Option.isSome_iff_exists.1 (SlotKind.isSome_toSlot? h.1)
      obtain ⟨bs, hbs⟩ := Option.isSome_iff_exists.1 (ih h.2)
      rw [slots?_cons hb hbs]
      rfl

end NativeCode

/-! ## Steps -/

namespace MachineM

variable {ctx : FrameContext} {f : Frame} {w : World} {i : Nat} {v : Value} {vs : List Value}

theorem entry_apply {xs : Array Value} (h : xs[i]? = some v) (s : Frame × World) : entry xs i ctx s = (.ok v, s) := by
  unfold entry
  rw [h]
  rfl

theorem effect_loadArg (h : f.args[i]? = some v) :
    effect (.loadArg i) ctx (f, w) = (.ok (), { f with stack := v :: f.stack }, w) := by
  rw [effect, Act.bind_ok (Act.own_apply ctx (f, w)), Act.bind_ok (entry_apply h (f, w))]
  rfl

theorem effect_loadLocal (h : f.locals[i]? = some v) :
    effect (.loadLocal i) ctx (f, w) = (.ok (), { f with stack := v :: f.stack }, w) := by
  rw [effect, Act.bind_ok (Act.own_apply ctx (f, w)), Act.bind_ok (entry_apply h (f, w))]
  rfl

theorem effect_storeArg (hst : f.stack = v :: vs) (hi : i < f.args.size) :
    effect (.storeArg i) ctx (f, w) = (.ok (), { f with args := f.args.setIfInBounds i v, stack := vs }, w) := by
  obtain ⟨args, locals, stack, pending⟩ := f
  cases hst
  show (if i < args.size then _ else _ : MachineM Unit) ctx _ = _
  rw [if_pos hi]
  rfl

theorem effect_storeLocal (hst : f.stack = v :: vs) (hi : i < f.locals.size) :
    effect (.storeLocal i) ctx (f, w) = (.ok (), { f with locals := f.locals.setIfInBounds i v, stack := vs }, w) := by
  obtain ⟨args, locals, stack, pending⟩ := f
  cases hst
  show (if i < locals.size then _ else _ : MachineM Unit) ctx _ = _
  rw [if_pos hi]
  rfl

end MachineM

/-- The variables of a frame stand in the slots of a native run, the arguments first. -/
structure Frame.StandsIn (f : Frame) (params locals : List SlotKind) (slots : Array UInt64) : Prop where
  vars : ∃ as ls, NativeCode.slots? params f.args.toList = some as ∧
    NativeCode.slots? locals f.locals.toList = some ls ∧ slots = (as ++ ls).toArray

namespace Frame.StandsIn

variable {f : Frame} {params locals : List SlotKind} {slots : Array UInt64} {i : Nat} {k : SlotKind} {v : Value}
  {b : UInt64}

/-- Frames with the same variables. -/
theorem of_vars {f' : Frame} (h : f.StandsIn params locals slots) (ha : f'.args = f.args) (hl : f'.locals = f.locals) :
    f'.StandsIn params locals slots := by
  obtain ⟨as, ls, has, hls, rfl⟩ := h
  exact ⟨as, ls, by rw [ha]; exact has, by rw [hl]; exact hls, rfl⟩

theorem arg (h : f.StandsIn params locals slots) (hk : params[i]? = some k) :
    ∃ v b, f.args[i]? = some v ∧ slots[i]? = some b ∧ k.toSlot? v = some b := by
  obtain ⟨as, ls, has, hls, rfl⟩ := h
  obtain ⟨v, b, hv, hb, hvb⟩ := NativeCode.slots?_getElem? has hk
  refine ⟨v, b, by simpa using hv, ?_, hvb⟩
  rw [List.getElem?_toArray, List.getElem?_append_left (List.getElem?_eq_some_iff.1 hb).1]
  exact hb

theorem localVar (h : f.StandsIn params locals slots) (hk : locals[i]? = some k) :
    ∃ v b, f.locals[i]? = some v ∧ slots[params.length + i]? = some b ∧ k.toSlot? v = some b := by
  obtain ⟨as, ls, has, hls, rfl⟩ := h
  obtain ⟨v, b, hv, hb, hvb⟩ := NativeCode.slots?_getElem? hls hk
  refine ⟨v, b, by simpa using hv, ?_, hvb⟩
  rw [List.getElem?_toArray, ← (NativeCode.slots?_length has).2, List.getElem?_append_right (by omega),
    Nat.add_sub_cancel_left]
  exact hb

theorem setArg (h : f.StandsIn params locals slots) (hk : params[i]? = some k) (hv : k.toSlot? v = some b) :
    Frame.StandsIn { f with args := f.args.setIfInBounds i v } params locals (slots.setIfInBounds i b) := by
  obtain ⟨as, ls, has, hls, rfl⟩ := h
  have hlt : i < as.length := by
    rw [(NativeCode.slots?_length has).2]
    exact (List.getElem?_eq_some_iff.1 hk).1
  refine ⟨as.set i b, ls, by simpa using NativeCode.slots?_set has hk hv, hls, ?_⟩
  simp [List.set_append_left _ _ hlt]

theorem setLocal (h : f.StandsIn params locals slots) (hk : locals[i]? = some k) (hv : k.toSlot? v = some b) :
    Frame.StandsIn { f with locals := f.locals.setIfInBounds i v } params locals
      (slots.setIfInBounds (params.length + i) b) := by
  obtain ⟨as, ls, has, hls, rfl⟩ := h
  refine ⟨as, ls.set i b, has, by simpa using NativeCode.slots?_set hls hk hv, ?_⟩
  rw [← (NativeCode.slots?_length has).2]
  simp [List.set_append_right _ _ (Nat.le_add_right as.length i)]

end Frame.StandsIn

/-- A native run stands where the machine stands, with a slot for each value. -/
structure NativeState.Mirrors (n : NativeState) (u : CodeUnit) (params locals : List SlotKind) (s : MachineState) :
    Prop where
  pc : n.pc = s.pc
  stack : ∃ ks, u.KindsAt s.pc ks ∧ NativeCode.slots? ks s.frame.stack = some n.stack
  vars : s.frame.StandsIn params locals n.slots

namespace NativeCode.Renders

variable {code : NativeCode} {u : CodeUnit} {depths : Depths} {params locals : List SlotKind}

/-- The two steps do the same. -/
def Agree (code : NativeCode) (u : CodeUnit) (params locals : List SlotKind) (ctx : FrameContext) (s : MachineState)
    (n : NativeState) : Prop :=
  (∃ s' n', u.step ctx s = .running s' ∧ code.step n = .running n' ∧ n'.Mirrors u params locals s' ∧
    s'.world = s.world) ∨
  ∃ v b, u.step ctx s = .finished (.ok v) s.world ∧ code.step n = .returned b ∧ code.ret.toSlot? v = some b

theorem argCount (hr : code.Renders u depths params locals) :
    (Lower.contextOf u depths params locals).argCount = u.arity :=
  Lower.length_of_mapM hr.ofParams

/-- An argument's slot has the kind of the parameter. -/
theorem argKind (hr : code.Renders u depths params locals) {i : Nat} {k : SlotKind} (hi : i < u.arity)
    (h : (Lower.contextOf u depths params locals).slots[i]? = some k) : params[i]? = some k := by
  rw [← hr.argCount] at hi
  rw [Lower.contextOf, List.getElem?_toArray, List.getElem?_append_left hi] at h
  exact h

theorem localKind {i : Nat} {k : SlotKind}
    (h : (Lower.contextOf u depths params locals).slots[(Lower.contextOf u depths params locals).argCount + i]? =
      some k) :
    locals[i]? = some k := by
  rw [Lower.contextOf, List.getElem?_toArray, List.getElem?_append_right (Nat.le_add_right _ _),
    Nat.add_sub_cancel_left] at h
  exact h

/-- Operands that suit an operator with native form. -/
theorem suits_arith {op : ArithOp} {sop : SlotOp} {k k' : SlotKind} {ks : List SlotKind}
    (h : u.Suits (.arith op .wrap) (k :: k' :: ks)) (hop : Lower.slotOp op = .ok sop) :
    k = k' ∧ (k' = .int ∨ op = .and ∨ op = .or ∨ op = .xor) := by
  cases op with
  | add | sub | mul => exact ⟨h.1.trans h.2.symm, .inl h.2⟩
  | and | or | xor => exact ⟨h, by simp⟩
  | _ => cases hop

theorem step_agree (hr : code.Renders u depths params locals) (hk : u.KindConsistent) (ha : u.NamesArgs)
    (ctx : FrameContext) {s : MachineState} {n : NativeState} (h : n.Mirrors u params locals s) :
    Agree code u params locals ctx s n := by
  obtain ⟨pc, ⟨args, vars, stack, pending⟩, w⟩ := s
  obtain ⟨npc, slots, nstack⟩ := n
  obtain ⟨rfl, ⟨ks, hpc, hstack⟩, hvars⟩ := h
  simp only at hpc hstack hvars
  obtain ⟨i, op, ks', hi, hop, hstands⟩ := hr.ops npc ks hpc
  have hsuits := hk npc ks i hpc hi
  have hafter := hstands.kindsAfter hr.ofParams hr.ofLocals
  -- both go on at the same instruction
  have hgo : ∀ {pc' : Nat} {f' : Frame} {slots' : Array UInt64} {nstack' : List UInt64},
      u.step ctx ⟨npc, ⟨args, vars, stack, pending⟩, w⟩ = .running ⟨pc', f', w⟩ →
      code.step ⟨npc, slots, nstack⟩ = .running ⟨pc', slots', nstack'⟩ → u.KindsAt pc' ks' →
      slots? ks' f'.stack = some nstack' → f'.StandsIn params locals slots' →
      Agree code u params locals ctx ⟨npc, ⟨args, vars, stack, pending⟩, w⟩ ⟨npc, slots, nstack⟩ :=
    fun hstep hnative hpc' hst hv => .inl ⟨_, _, hstep, hnative, ⟨rfl, ⟨ks', hpc', hst⟩, hv⟩, rfl⟩
  -- an instruction that neither branches nor returns
  have hplain : ∀ {f' : Frame} {slots' : Array UInt64} {nstack' : List UInt64}, i.target? = none ∧ i.endsFlow = false →
      MachineM.effect i ctx (⟨args, vars, stack, pending⟩, w) = (.ok (), f', w) →
      code.step ⟨npc, slots, nstack⟩ = .running ⟨npc + 1, slots', nstack'⟩ →
      slots? ks' f'.stack = some nstack' → f'.StandsIn params locals slots' →
      Agree code u params locals ctx ⟨npc, ⟨args, vars, stack, pending⟩, w⟩ ⟨npc, slots, nstack⟩ := by
    rintro f' slots' nstack' ⟨htarget, hgoes⟩ heffect hnative hst hv
    have hret : i ≠ .ret := by
      rintro rfl
      cases hgoes
    refine hgo ?_ hnative (hpc.next hi hgoes hafter) hst hv
    simp only [CodeUnit.step, hi, MachineM.exec_plain htarget hret, Act.bind_ok heffect, Act.pure_apply]
  cases hstands with
  | nop => exact hplain ⟨rfl, rfl⟩ rfl (by simp [step, hop]) hstack hvars
  | int | bool => exact hplain ⟨rfl, rfl⟩ rfl (by simp [step, hop]) (slots?_cons rfl hstack) (hvars.of_vars rfl rfl)
  | zero kind =>
    exact hplain ⟨rfl, rfl⟩ rfl (by simp [step, hop]) (slots?_cons (SlotKind.toSlot?_zero kind) hstack)
      (hvars.of_vars rfl rfl)
  | @loadArg i k ks kind =>
    obtain ⟨v, b, hv, hb, hvb⟩ := hvars.arg (hr.argKind (ha npc ks i hpc (.inl hi)) kind)
    exact hplain ⟨rfl, rfl⟩ (MachineM.effect_loadArg hv) (by simp [step, hop, hb]) (slots?_cons hvb hstack)
      (hvars.of_vars rfl rfl)
  | @loadLocal i k ks kind =>
    obtain ⟨v, b, hv, hb, hvb⟩ := hvars.localVar (localKind kind)
    exact hplain ⟨rfl, rfl⟩ (MachineM.effect_loadLocal hv) (by simp [step, hop, Lower.contextOf, hb])
      (slots?_cons hvb hstack) (hvars.of_vars rfl rfl)
  | @storeArg i k ks =>
    obtain ⟨v, vs, b, bs, rfl, rfl, hvb, hstack⟩ := slots?_cons_inv hstack
    have hkind : params[i]? = some k := hr.argKind (ha npc _ i hpc (.inr hi)) (by
      rw [Lower.getElem?_slots hr.ofParams hr.ofLocals]
      exact hsuits)
    obtain ⟨v', -, hv', -⟩ := hvars.arg hkind
    exact hplain ⟨rfl, rfl⟩ (MachineM.effect_storeArg rfl (Array.getElem?_eq_some_iff.1 hv').1)
      (by simp [step, hop]) hstack ((hvars.setArg hkind hvb).of_vars rfl rfl)
  | @storeLocal i k ks =>
    obtain ⟨v, vs, b, bs, rfl, rfl, hvb, hstack⟩ := slots?_cons_inv hstack
    have hslot : (Lower.contextOf u depths params locals).slots[
        (Lower.contextOf u depths params locals).argCount + i]? = some k := by
      rw [Lower.getElem?_slots hr.ofParams hr.ofLocals, hr.argCount]
      exact hsuits
    have hkind := localKind hslot
    obtain ⟨v', -, hv', -⟩ := hvars.localVar hkind
    exact hplain ⟨rfl, rfl⟩ (MachineM.effect_storeLocal rfl (Array.getElem?_eq_some_iff.1 hv').1)
      (by simp [step, hop, Lower.contextOf]) hstack ((hvars.setLocal hkind hvb).of_vars rfl rfl)
  | dup =>
    obtain ⟨v, vs, b, bs, rfl, rfl, hvb, hvs⟩ := slots?_cons_inv hstack
    exact hplain ⟨rfl, rfl⟩ rfl (by simp [step, hop]) (slots?_cons hvb hstack) (hvars.of_vars rfl rfl)
  | pop =>
    obtain ⟨v, vs, b, bs, rfl, rfl, -, hvs⟩ := slots?_cons_inv hstack
    exact hplain ⟨rfl, rfl⟩ rfl (by simp [step, hop]) hvs (hvars.of_vars rfl rfl)
  | @arith op sop k k' ks same =>
    obtain ⟨r, _, b, _, rfl, rfl, hr', hrest⟩ := slots?_cons_inv hstack
    obtain ⟨l, vs, a, bs, rfl, rfl, hl', hvs⟩ := slots?_cons_inv hrest
    obtain ⟨rfl, hkind⟩ := suits_arith hsuits same
    obtain ⟨z, hz, hslot⟩ := SlotKind.toSlot?_arith hl' hr' same hkind
    have heffect : MachineM.effect (.arith op .wrap) ctx (⟨args, vars, r :: l :: vs, pending⟩, w) =
        (.ok (), ⟨args, vars, z :: vs, pending⟩, w) := by
      show (Act.settle (l.arith op r .wrap) >>= MachineM.push) ctx _ = _
      rw [hz]
      rfl
    exact hplain ⟨rfl, rfl⟩ heffect (by simp [step, hop]) (slots?_cons hslot hvs) (hvars.of_vars rfl rfl)
  | @negate k ks =>
    obtain ⟨v, vs, b, bs, rfl, rfl, hvb, hvs⟩ := slots?_cons_inv hstack
    obtain rfl : k = .int := hsuits
    rw [SlotKind.toSlot?_int.1 hvb] at hplain ⊢
    have heffect : MachineM.effect (.negate .wrap) ctx (⟨args, vars, .int ⟨.i64, b.toBitVec⟩ :: vs, pending⟩, w) =
        (.ok (), ⟨args, vars, .int ⟨.i64, (-b).toBitVec⟩ :: vs, pending⟩, w) := by
      show (Act.settle (Value.ofWord (Word.negate _ .wrap)) >>= MachineM.push) ctx _ = _
      rw [Word.negate_i64]
      rfl
    exact hplain ⟨rfl, rfl⟩ heffect (by simp [step, hop]) (slots?_cons rfl hvs) (hvars.of_vars rfl rfl)
  | flip =>
    obtain ⟨v, vs, b, bs, rfl, rfl, hvb, hvs⟩ := slots?_cons_inv hstack
    obtain ⟨x, rfl, rfl⟩ := SlotKind.toSlot?_bool.1 hvb
    have hflip : SlotKind.bool.toSlot? (.bool !x) = some ((if x then 1 else 0) ^^^ 1) := by cases x <;> rfl
    exact hplain ⟨rfl, rfl⟩ rfl (by simp [step, hop]) (slots?_cons hflip hvs) (hvars.of_vars rfl rfl)
  | complement =>
    obtain ⟨v, vs, b, bs, rfl, rfl, hvb, hvs⟩ := slots?_cons_inv hstack
    rw [SlotKind.toSlot?_int.1 hvb] at hplain ⊢
    exact hplain ⟨rfl, rfl⟩ rfl (by simp [step, hop]) (slots?_cons rfl hvs) (hvars.of_vars rfl rfl)
  | @compare op k k' ks =>
    obtain ⟨r, _, b, _, rfl, rfl, hr', hrest⟩ := slots?_cons_inv hstack
    obtain ⟨l, vs, a, bs, rfl, rfl, hl', hvs⟩ := slots?_cons_inv hrest
    obtain rfl : k = k' := hsuits
    exact hplain ⟨rfl, rfl⟩ rfl (by simp [step, hop]) (slots?_cons (SlotKind.toSlot?_compareBy hl' hr' op) hvs)
      (hvars.of_vars rfl rfl)
  | @genericEq k k' ks =>
    obtain ⟨r, _, b, _, rfl, rfl, hr', hrest⟩ := slots?_cons_inv hstack
    obtain ⟨l, vs, a, bs, rfl, rfl, hl', hvs⟩ := slots?_cons_inv hrest
    obtain rfl : k = k' := hsuits
    have hslot := SlotKind.toSlot?_compareBy hl' hr' .eq
    rw [← SlotKind.same_eq_compareBy hl' hr'] at hslot
    exact hplain ⟨rfl, rfl⟩ rfl (by simp [step, hop]) (slots?_cons hslot hvs) (hvars.of_vars rfl rfl)
  | jump => exact hgo (by simp only [CodeUnit.step, hi]; rfl) (by simp [step, hop]) (hpc.jump hi hafter) hstack hvars
  | @jumpIf t k ks =>
    obtain ⟨v, vs, b, bs, rfl, rfl, hvb, hvs⟩ := slots?_cons_inv hstack
    obtain rfl : k = .bool := hsuits
    obtain ⟨x, rfl, rfl⟩ := SlotKind.toSlot?_bool.1 hvb
    have hstep : u.step ctx ⟨npc, ⟨args, vars, .bool x :: vs, pending⟩, w⟩ =
        .running ⟨if x then t else npc + 1, ⟨args, vars, vs, pending⟩, w⟩ := by
      simp only [CodeUnit.step, hi]
      cases x <;> rfl
    have hpc' : u.KindsAt (if x then t else npc + 1) ks' := by
      cases x
      · exact hpc.next hi rfl hafter
      · exact hpc.jump hi hafter
    exact hgo hstep (by cases x <;> simp [step, hop]) hpc' hvs (hvars.of_vars rfl rfl)
  | @jumpUnless t k ks =>
    obtain ⟨v, vs, b, bs, rfl, rfl, hvb, hvs⟩ := slots?_cons_inv hstack
    obtain rfl : k = .bool := hsuits
    obtain ⟨x, rfl, rfl⟩ := SlotKind.toSlot?_bool.1 hvb
    have hstep : u.step ctx ⟨npc, ⟨args, vars, .bool x :: vs, pending⟩, w⟩ =
        .running ⟨if x then npc + 1 else t, ⟨args, vars, vs, pending⟩, w⟩ := by
      simp only [CodeUnit.step, hi]
      cases x <;> rfl
    have hpc' : u.KindsAt (if x then npc + 1 else t) ks' := by
      cases x
      · exact hpc.jump hi hafter
      · exact hpc.next hi rfl hafter
    exact hgo hstep (by cases x <;> simp [step, hop]) hpc' hvs (hvars.of_vars rfl rfl)
  | @ret k ks =>
    obtain ⟨v, vs, b, bs, rfl, rfl, hvb, hvs⟩ := slots?_cons_inv hstack
    refine .inr ⟨v, b, ?_, by simp [step, hop], ?_⟩
    · simp only [CodeUnit.step, hi]
      rfl
    · obtain rfl : code.ret = k := Option.some.inj (hr.ofRet.symm.trans hsuits)
      exact hvb

/-! ## Runs -/

theorem run_agree (hr : code.Renders u depths params locals) (hk : u.KindConsistent) (ha : u.NamesArgs)
    (ctx : FrameContext) : ∀ (fuel : Nat) {s : MachineState} {n : NativeState}, n.Mirrors u params locals s →
      u.run ctx fuel s = (match code.run fuel n with
        | some b => .ok (code.ret.ofSlot b)
        | none => .error .exhausted, s.world)
  | 0, s, n, _ => rfl
  | fuel + 1, s, n, h => by
    rw [CodeUnit.run, NativeCode.run]
    rcases hr.step_agree hk ha ctx h with ⟨s', n', hs, hn, hm, hw⟩ | ⟨v, b, hs, hn, hv⟩
    · simp only [hs, hn]
      rw [run_agree hr hk ha ctx fuel hm, hw]
    · simp only [hs, hn, SlotKind.ofSlot_of_toSlot? hv]

/-- Arguments of the parameters' kinds are mirrored where a call starts. -/
theorem start_mirrors (hr : code.Renders u depths params locals) {args : List Value}
    (hargs : args.map Value.slotKind? = u.params.map SlotKind.ofTy?) (w : World) :
    ∃ n, code.start? args = some n ∧ n.Mirrors u params locals ⟨0, u.frame none args, w⟩ := by
  have hkinds : args.map Value.slotKind? = params.map some := by
    rw [hargs]
    apply List.ext_getElem?
    intro i
    rw [List.getElem?_map, List.getElem?_map, Lower.getElem?_of_mapM hr.ofParams]
    rcases hi : u.params[i]? with _ | ty
    · rfl
    · rcases ho : SlotKind.ofTy? ty with _ | k
      · exfalso
        have hlt := (List.getElem?_eq_some_iff.1 hi).1
        rw [← Lower.length_of_mapM hr.ofParams] at hlt
        have := Lower.getElem?_of_mapM hr.ofParams i
        rw [List.getElem?_eq_getElem hlt, hi] at this
        simp [ho] at this
      · simp [ho]
  obtain ⟨bs, hbs⟩ := Option.isSome_iff_exists.1 (isSome_slots? hkinds)
  refine ⟨⟨0, bs.toArray ++ Array.replicate code.locals 0, []⟩, ?_, rfl, ⟨[], .start, rfl⟩, bs,
    List.replicate locals.length 0, by simpa [CodeUnit.frame] using hbs, ?_, ?_⟩
  · rw [start?, hr.params_eq, hbs]
    rfl
  · simpa [CodeUnit.frame] using slots?_zeros hr.ofLocals
  · rw [hr.locals_eq]
    simp

end NativeCode.Renders

namespace CodeUnit

/-- On a unit whose kinds are consistent, native code returns exactly what the machine returns, after as
many steps, and the machine neither throws nor meets a defect nor changes the world. -/
theorem lower_agrees {u : CodeUnit} {limit : Nat} {code : NativeCode} (h : u.lower limit = .ok (.native code))
    (hk : u.KindConsistent) (ha : u.NamesArgs) {args : List Value}
    (hargs : args.map Value.slotKind? = u.params.map SlotKind.ofTy?) (lib : Library) (inv : Invoker) (w : World)
    (fuel : Nat) :
    (∀ v, code.call? fuel args = some v ↔ (u.interpret ⟨lib, inv, none⟩ fuel args w).1 = .ok v) ∧
      (∀ e, (u.interpret ⟨lib, inv, none⟩ fuel args w).1 = .error e → e = .exhausted) ∧
      (u.interpret ⟨lib, inv, none⟩ fuel args w).2 = w := by
  obtain ⟨depths, params, locals, hr⟩ := lower_renders h
  obtain ⟨n, hstart, hm⟩ := hr.start_mirrors hargs w
  have hrun := hr.run_agree hk ha ⟨lib, inv, none⟩ fuel hm
  have hcall : code.call? fuel args = (code.run fuel n).map code.ret.ofSlot := by
    rw [NativeCode.call?, hstart]
    show (code.run fuel n >>= fun b => some (code.ret.ofSlot b)) = _
    rcases code.run fuel n with _ | b <;> rfl
  rw [interpret, hrun, hcall]
  rcases code.run fuel n with _ | b
  · simp
  · simp

/-- Kinds that are handed on from each instruction to those after it are all kinds with which control
comes. -/
theorem KindsAt.of_table {u : CodeUnit} (table : List (List SlotKind)) (h₀ : table[0]? = some [])
    (hstep : ∀ pc < table.length, ∀ i ∈ u.instrs[pc]?, ∀ ks ∈ table[pc]?, ∀ ks' ∈ u.kindsAfter i ks,
      (i.endsFlow = false → table[pc + 1]? = some ks') ∧ ∀ t ∈ i.target?, table[t]? = some ks')
    {pc : Nat} {ks : List SlotKind} (h : u.KindsAt pc ks) : table[pc]? = some ks := by
  induction h with
  | start => exact h₀
  | next _ hi hgoes hafter ih => exact (hstep _ (List.getElem?_eq_some_iff.1 ih).1 _ hi _ ih _ hafter).1 hgoes
  | jump _ hi hafter ih => exact (hstep _ (List.getElem?_eq_some_iff.1 ih).1 _ hi _ ih _ hafter).2 _ rfl

/-- Counts its argument down to zero in a loop. -/
def countdown : CodeUnit where
  name := "countdown"
  params := [.int .i64]
  ret := .int .i64
  layout := none
  locals := #[]
  instrs := #[.loadArg 0, .const (.int ⟨.i64, 0⟩), .compare .gt, .branch .ifFalse 9, .loadArg 0,
    .const (.int ⟨.i64, 1⟩), .arith .sub .wrap, .storeArg 0, .branch .always 0, .loadArg 0, .ret]
  handlers := []
  maxStack := 2
  native := none

def countdownKinds : List (List SlotKind) :=
  [[], [.int], [.int, .int], [.bool], [], [.int], [.int, .int], [.int], [], [], [.int]]

theorem countdown_kinds {pc : Nat} {ks : List SlotKind} (h : countdown.KindsAt pc ks) :
    countdownKinds[pc]? = some ks := by
  refine h.of_table countdownKinds rfl ?_
  decide

theorem countdown_consistent : countdown.KindConsistent ∧ countdown.NamesArgs := by
  constructor
  · intro pc ks i hpc hi
    have hk := countdown_kinds hpc
    have hlt : pc < 11 := (List.getElem?_eq_some_iff.1 hk).1
    interval_cases pc <;> cases hk <;> cases hi <;> simp [Suits, slotKind?, countdown, SlotKind.ofTy?]
  · intro pc ks i hpc hi
    have hlt : pc < 11 := (List.getElem?_eq_some_iff.1 (countdown_kinds hpc)).1
    interval_cases pc <;> simp_all [countdown, arity]

theorem lower_agrees_countdown :
    countdown.KindConsistent ∧ countdown.NamesArgs ∧ ∃ code, countdown.lower 4096 = .ok (.native code) ∧
      code.call? 1000 [.int ⟨.i64, 5⟩] = some (.int ⟨.i64, 0⟩) ∧
      ∀ lib inv w, (countdown.interpret ⟨lib, inv, none⟩ 1000 [.int ⟨.i64, 5⟩] w).1 = .ok (.int ⟨.i64, 0⟩) := by
  obtain ⟨hk, ha⟩ := countdown_consistent
  obtain ⟨code, hcode, hcall⟩ : ∃ code, countdown.lower 4096 = .ok (.native code) ∧
      code.call? 1000 [.int ⟨.i64, 5⟩] = some (.int ⟨.i64, 0⟩) := ⟨_, rfl, rfl⟩
  exact ⟨hk, ha, code, hcode, hcall, fun lib inv w => ((lower_agrees hcode hk ha rfl lib inv w 1000).1 _).1 hcall⟩

/-- Reads an argument, of which it has none. -/
def pastArgs : CodeUnit where
  name := "pastArgs"
  params := []
  ret := .int .i64
  layout := none
  locals := #[.int .i64]
  instrs := #[.loadArg 0, .ret]
  handlers := []
  maxStack := 1
  native := none

/-- Native code keeps the locals right after the arguments, so an instruction on an argument that the unit
does not have reads a local there; the machine meets a defect. -/
theorem lower_reads_past_args :
    pastArgs.KindConsistent ∧ ∃ code, pastArgs.lower 4096 = .ok (.native code) ∧
      code.call? 2 [] = some (.int ⟨.i64, 0⟩) ∧
      ∀ lib inv w fuel v, (pastArgs.interpret ⟨lib, inv, none⟩ fuel [] w).1 ≠ .ok v := by
  have hkinds : ∀ {pc ks}, pastArgs.KindsAt pc ks → ([[], [.int]] : List (List SlotKind))[pc]? = some ks :=
    fun h => h.of_table _ rfl (by decide)
  refine ⟨fun pc ks i hpc hi => ?_, _, rfl, rfl, fun lib inv w fuel v => ?_⟩
  · have hk := hkinds hpc
    have hlt : pc < 2 := (List.getElem?_eq_some_iff.1 hk).1
    interval_cases pc <;> cases hk <;> cases hi <;> simp [Suits, pastArgs, SlotKind.ofTy?]
  · cases fuel with
    | zero => simp [interpret, run]
    | succ fuel =>
      have hstep : pastArgs.step ⟨lib, inv, none⟩ ⟨0, pastArgs.frame none [], w⟩ =
          .finished (.error (.defect (.outOfBounds 0 0))) w := rfl
      simp [interpret, run, hstep]

end CodeUnit

end ExprCompiler
