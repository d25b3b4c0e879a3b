/-
Two runs of private code side by side, one alone and one among others. Closures and exception objects that are made on
the way get different numbers in the two runs; a mirror says which of the second run stand for those of the first. What
was there before, the ground, is the same for both and never changes. Related values answer every question that private
code can ask of them alike.
-/
import ExprCompiler.Proofs.FirstOrder.Portable
import ExprCompiler.World

namespace ExprCompiler

/-! ## Data -/

namespace Value

/-- Functions and parts of the machine are no data. -/
def isData : Value → Bool
  | .func _ | .code _ | .closure _ | .addr _ => false
  | _ => true

/-- At most `n` references lie on a chain through the heap that starts at the value. -/
inductive Within (h : Heap) : Nat → Value → Prop
  | leaf {n : Nat} {v : Value} (hv : v.isImmediate = true ∨ v.isData = false) : Within h n v
  | object {n : Nat} {o : ObjectRef} (ho : o.id < h.objects.size) (hs : ∀ v ∈ h.fields o, Within h n v) :
    Within h (n + 1) (.object o)
  | array {n : Nat} {a : ArrayRef} (hs : ∀ v ∈ h.items a, Within h n v) : Within h (n + 1) (.array a)
  | struct {n : Nat} {c : Class} {fs : List Value} (hs : ∀ v ∈ fs, Within h n v) : Within h n (.struct c fs)

/-- Data that the heap holds completely, without cycles. -/
structure Known (h : Heap) (v : Value) : Prop where
  isData : v.isData = true
  within : v.Within h (h.objects.size + h.arrays.size)

theorem known_of_isImmediate {h : Heap} {v : Value} (hv : v.isImmediate = true) : v.Known h := by
  refine ⟨?_, .leaf (.inl hv)⟩
  cases v <;> first | rfl | cases hv

theorem Known.object_lt {h : Heap} {o : ObjectRef} (hk : (Value.object o).Known h) : o.id < h.objects.size := by
  obtain ⟨-, hw⟩ := hk
  generalize h.objects.size + h.arrays.size = n at hw
  cases hw with
  | leaf hv => rcases hv with hv | hv <;> cases hv
  | object ho _ => exact ho

end Value

section

variable (h : Heap) (n : Nat)

mutual

theorem Ty.within_zero : ∀ ty : Ty, ty.zero.Within h n
  | .cls c => Class.within_zero c
  | .bool | .int _ | .f64 | .void | .str | .object | .token | .array _ | .nullable _ | .func _ _ => .leaf (.inl rfl)

theorem Class.within_zero : ∀ c : Class, c.zero.Within h n
  | .mk serial name valueType base fields => by
    rw [Class.zero]
    split
    · exact .struct (Field.within_zeros fields)
    · exact .leaf (.inl rfl)

theorem Field.within_zeros : ∀ fs : List Field, ∀ v ∈ Field.zeros fs, v.Within h n
  | [], v, hv => by rw [Field.zeros] at hv; cases hv
  | .mk name ty :: fs, v, hv => by
    rw [Field.zeros, Field.zero] at hv
    rcases List.mem_cons.1 hv with rfl | hv
    · exact Ty.within_zero ty
    · exact Field.within_zeros fs v hv

end

end

/-- Locations start with data. -/
theorem Ty.known_zero (h : Heap) (ty : Ty) : ty.zero.Known h := by
  refine ⟨?_, ty.within_zero h _⟩
  cases ty with
  | cls c =>
    rcases c with ⟨serial, name, valueType, base, fields⟩
    rw [Ty.zero, Class.zero]
    split <;> rfl
  | _ => rfl

/-! ## Texts of data -/

namespace Heap

/-- Objects are kept and arrays are unchanged. -/
structure Keeps (h h' : Heap) : Prop where
  objects : ∀ i < h.objects.size, h'.objects[i]? = h.objects[i]?
  arrays : h'.arrays = h.arrays

namespace Keeps

variable {h h' h'' : Heap}

theorem refl (h : Heap) : h.Keeps h := ⟨fun _ _ => rfl, rfl⟩

theorem size_le (hk : h.Keeps h') : h.objects.size ≤ h'.objects.size := by
  by_contra hlt
  have := hk.objects h'.objects.size (by omega)
  rw [Array.getElem?_eq_none (Nat.le_refl _), eq_comm, Array.getElem?_eq_none_iff] at this
  omega

theorem trans (hk : h.Keeps h') (hk' : h'.Keeps h'') : h.Keeps h'' where
  objects i hi := by rw [hk'.objects i (Nat.lt_of_lt_of_le hi hk.size_le), hk.objects i hi]
  arrays := by rw [hk'.arrays, hk.arrays]

theorem fields (hk : h.Keeps h') {o : ObjectRef} (ho : o.id < h.objects.size) : h'.fields o = h.fields o := by
  rw [Heap.fields, hk.objects o.id ho, Heap.fields]

theorem items (hk : h.Keeps h') (a : ArrayRef) : h'.items a = h.items a := by
  rw [Heap.items, hk.arrays, Heap.items]

end Keeps

end Heap

namespace Value

/-- The text of a value found in the heap, when `depth` more references may be followed. -/
def foundAt (h : Heap) : Nat → Value → String
  | 0 => fun _ => ""
  | depth + 1 => textAt h depth

theorem textAt_eq (h : Heap) (depth : Nat) (v : Value) : v.textAt h depth = v.textWith (foundAt h depth) h := by
  cases depth <;> rfl

theorem fieldTexts_congr {found found' : Value → String} {h h' : Heap} {names : List String} {fs : List Value}
    (heq : ∀ v ∈ fs, v.textWith found h = v.textWith found' h') :
    fieldTexts found h names fs = fieldTexts found' h' names fs := by
  induction fs generalizing names with
  | nil => rfl
  | cons v fs ih =>
    cases names with
    | nil => rfl
    | cons name names =>
      rw [fieldTexts, fieldTexts, heq v (by simp), ih fun w hw => heq w (by simp [hw])]

variable {h h₁ h₂ : Heap}

/-- The text of a value does not depend on what else the heap holds, nor on how far references may be followed
beyond the longest chain. -/
theorem Within.textAt_congr {n : Nat} {v : Value} (hv : v.Within h n) (hk₁ : h.Keeps h₁) (hk₂ : h.Keeps h₂) :
    ∀ {d₁ d₂ : Nat}, n ≤ d₁ → n ≤ d₂ → v.textAt h₁ d₁ = v.textAt h₂ d₂ := by
  induction hv with
  | @leaf n v hv =>
    intro d₁ d₂ _ _
    rw [textAt_eq, textAt_eq]
    cases v <;> first | rfl | (rcases hv with hv | hv <;> cases hv)
  | @object n o ho _ ih =>
    intro d₁ d₂ hd₁ hd₂
    obtain ⟨e₁, rfl⟩ := Nat.exists_eq_add_of_lt hd₁
    obtain ⟨e₂, rfl⟩ := Nat.exists_eq_add_of_lt hd₂
    have hfound : textAt h₁ (n + e₁) ((h.fields o)[0]?.getD .null) =
      textAt h₂ (n + e₂) ((h.fields o)[0]?.getD .null) := by
      rcases hf : (h.fields o)[0]? with _ | v
      · simp only [Option.getD_none, textAt_eq]
        rfl
      · exact ih v (Array.mem_of_getElem? hf) (by omega) (by omega)
    rw [textAt, textAt, textWith, textWith, hk₁.fields ho, hk₂.fields ho, hfound]
  | @array n a _ ih =>
    intro d₁ d₂ hd₁ hd₂
    obtain ⟨e₁, rfl⟩ := Nat.exists_eq_add_of_lt hd₁
    obtain ⟨e₂, rfl⟩ := Nat.exists_eq_add_of_lt hd₂
    rw [textAt, textAt, textWith, textWith, hk₁.items, hk₂.items]
    congr 1
    exact List.map_congr_left fun v hv => ih v (by simpa using hv) (by omega) (by omega)
  | @struct n c fs _ ih =>
    intro d₁ d₂ hd₁ hd₂
    rw [textAt_eq, textAt_eq, textWith, textWith]
    rw [fieldTexts_congr fun v hv => ?_]
    rw [← textAt_eq, ← textAt_eq]
    exact ih v hv hd₁ hd₂

theorem Known.text_congr {v : Value} (hv : v.Known h) (hk₁ : h.Keeps h₁) (hk₂ : h.Keeps h₂) :
    v.text h₁ = v.text h₂ := by
  have hs₁ := hk₁.size_le
  have hs₂ := hk₂.size_le
  refine hv.within.textAt_congr hk₁ hk₂ ?_ ?_
  · rw [hk₁.arrays]
    omega
  · rw [hk₂.arrays]
    omega

end Value

/-! ## Related values -/

/-- What two runs have in common: the world they start in, and the units they may run. -/
structure Ground where
  world : World
  trusted : UnitRef → Prop

/-- The closures and objects of a second run that stand for those that the first has made. -/
structure Mirror where
  closures : List Nat := []
  objects : List Nat := []

namespace Mirror

/-- More has been made since. -/
structure Extends (M M' : Mirror) : Prop where
  closures : M.closures <+: M'.closures
  objects : M.objects <+: M'.objects

variable {M M' M'' : Mirror}

theorem Extends.refl (M : Mirror) : M.Extends M := ⟨List.prefix_rfl, List.prefix_rfl⟩

theorem Extends.trans (h : M.Extends M') (h' : M'.Extends M'') : M.Extends M'' :=
  ⟨h.closures.trans h'.closures, h.objects.trans h'.objects⟩

theorem getElem?_of_prefix {xs ys : List Nat} (h : xs <+: ys) {i x : Nat} (hi : xs[i]? = some x) : ys[i]? = some x := by
  obtain ⟨zs, rfl⟩ := h
  rw [List.getElem?_append_left (List.getElem?_eq_some_iff.1 hi).1, hi]

end Mirror

namespace Ground

variable {g : Ground} {M M' : Mirror}

/-- Values that stand for each other in two runs. A function runs trusted code, with a closure made in the run. -/
inductive Alike (g : Ground) (M : Mirror) : Value → Value → Prop
  | known {v : Value} (hv : v.Known g.world.heap) : Alike g M v v
  | object {i i' : Nat} (cls : Class) (hi : M.objects[i]? = some i') :
    Alike g M (.object ⟨g.world.heap.objects.size + i, cls⟩) (.object ⟨i', cls⟩)
  | bare {u : UnitRef} (hu : g.trusted u) : Alike g M (.func (.code u none)) (.func (.code u none))
  | bound {u : UnitRef} {i i' : Nat} (hu : g.trusted u) (hi : M.closures[i]? = some i') :
    Alike g M (.func (.code u (some ⟨g.world.closures.size + i⟩))) (.func (.code u (some ⟨i'⟩)))
  | code {u : UnitRef} (hu : g.trusted u) : Alike g M (.code u) (.code u)
  | closure {i i' : Nat} (hi : M.closures[i]? = some i') :
    Alike g M (.closure ⟨g.world.closures.size + i⟩) (.closure ⟨i'⟩)
  | oldClosure {c : ClosureRef} (hc : c.id < g.world.closures.size) : Alike g M (.closure c) (.closure c)

theorem Alike.mono (hM : M.Extends M') {v v' : Value} (h : g.Alike M v v') : g.Alike M' v v' := by
  cases h with
  | known hv => exact .known hv
  | object cls hi => exact .object cls (Mirror.getElem?_of_prefix hM.objects hi)
  | bare hu => exact .bare hu
  | bound hu hi => exact .bound hu (Mirror.getElem?_of_prefix hM.closures hi)
  | code hu => exact .code hu
  | closure hi => exact .closure (Mirror.getElem?_of_prefix hM.closures hi)
  | oldClosure hc => exact .oldClosure hc

theorem alike_of_isImmediate {v : Value} (hv : v.isImmediate = true) : g.Alike M v v :=
  .known (Value.known_of_isImmediate hv)

/-! ## Related worlds -/

/-- What the second run has made for the first stands apart from the ground, and the contents are related. -/
structure Worlds (g : Ground) (M : Mirror) (w w' : World) : Prop where
  size : w.closures.size = g.world.closures.size + M.closures.length
  objectSize : w.heap.objects.size = g.world.heap.objects.size + M.objects.length
  heap : g.world.heap.Keeps w.heap
  heap' : g.world.heap.Keeps w'.heap
  old : ∀ c < g.world.closures.size, w.closures[c]? = g.world.closures[c]?
  old' : ∀ c < g.world.closures.size, w'.closures[c]? = g.world.closures[c]?
  image : ∀ c ∈ M.closures, g.world.closures.size ≤ c
  objectImage : ∀ o ∈ M.objects, g.world.heap.objects.size ≤ o
  nodup : M.closures.Nodup
  objectNodup : M.objects.Nodup
  items : ∀ (i i' : Nat), M.closures[i]? = some i' → ∃ c c', w.closures[g.world.closures.size + i]? = some c ∧
    w'.closures[i']? = some c' ∧ c'.strategy = c.strategy ∧ List.Forall₂ (g.Alike M) c.items.toList c'.items.toList
  fields : ∀ (i i' : Nat), M.objects[i]? = some i' → ∃ s : String,
    w.heap.objects[g.world.heap.objects.size + i]? = some #[.str s] ∧ w'.heap.objects[i']? = some #[.str s]

variable {w w' : World}

theorem Worlds.image_lt (hw : g.Worlds M w w') : ∀ c ∈ M.closures, c < w'.closures.size := by
  intro c hc
  obtain ⟨i, hi⟩ := List.mem_iff_getElem?.1 hc
  obtain ⟨_, _, _, h, _⟩ := hw.items i c hi
  exact (Array.getElem?_eq_some_iff.1 h).1

theorem Worlds.objectImage_lt (hw : g.Worlds M w w') : ∀ o ∈ M.objects, o < w'.heap.objects.size := by
  intro o ho
  obtain ⟨i, hi⟩ := List.mem_iff_getElem?.1 ho
  obtain ⟨_, _, h⟩ := hw.fields i o hi
  exact (Array.getElem?_eq_some_iff.1 h).1

/-! ## Questions asked of values -/

namespace Alike

variable {a a' b b' v v' : Value}

/-- Immediate values stand for themselves alone. -/
theorem eq_of_isImmediate (h : g.Alike M v v') (hv : v.isImmediate = true) : v' = v := by
  cases h <;> first | rfl | cases hv

theorem isImmediate_eq (h : g.Alike M v v') : v'.isImmediate = v.isImmediate := by
  cases h <;> rfl

theorem isNull_eq (h : g.Alike M v v') : v'.isNull = v.isNull := by
  cases h <;> rfl

theorem isTrue_eq (h : g.Alike M v v') : v'.isTrue = v.isTrue := by
  cases h <;> rfl

theorem text_eq (h : g.Alike M v v') (hw : g.Worlds M w w') : v'.text w'.heap = v.text w.heap := by
  cases h with
  | known hv => exact hv.text_congr hw.heap' hw.heap
  | @object i i' cls hi =>
    obtain ⟨s, hs, hs'⟩ := hw.fields i i' hi
    have hlt := (Array.getElem?_eq_some_iff.1 hs).1
    have hlt' := (Array.getElem?_eq_some_iff.1 hs').1
    -- Both heaps have an object, so that one reference at least is followed.
    obtain ⟨d, hd⟩ : ∃ d, w.heap.objects.size + w.heap.arrays.size = d + 1 := ⟨_, (Nat.succ_pred (by omega)).symm⟩
    obtain ⟨d', hd'⟩ : ∃ d, w'.heap.objects.size + w'.heap.arrays.size = d + 1 := ⟨_, (Nat.succ_pred (by omega)).symm⟩
    rw [Value.text, Value.text, hd, hd', Value.textAt, Value.textAt, Value.textWith, Value.textWith, Heap.fields,
      Heap.fields, hs, hs']
    simp only [Option.getD_some, List.getElem?_toArray, List.getElem?_cons_zero, Value.textAt_eq, Value.textWith]
  | bare _ | bound _ _ | code _ | closure _ | oldClosure _ => simp only [Value.text, Value.textAt_eq, Value.textWith]

theorem describe_eq (h : g.Alike M v v') (hw : g.Worlds M w w') : v'.describe w'.heap = v.describe w.heap := by
  have ht := h.text_eq hw
  cases h with
  | @known v hv => cases v <;> first | rfl | exact ht
  | object cls hi | bare _ | bound _ _ | code _ | closure _ | oldClosure _ => exact ht

theorem concat_eq (ha : g.Alike M a a') (hb : g.Alike M b b') (hw : g.Worlds M w w') :
    a'.concat w'.heap b' = a.concat w.heap b := by
  simp only [Value.concat, ha.isNull_eq, hb.isNull_eq, ha.text_eq hw, hb.text_eq hw]

theorem hasType_eq (h : g.Alike M v v') : ∀ ty : Ty, v'.hasType ty = v.hasType ty
  | .nullable ty => by rw [Value.hasType, Value.hasType, h.isNull_eq, h.hasType_eq ty]
  | .void | .bool | .int _ | .f64 | .str | .object | .token | .cls _ | .array _ | .func _ _ => by cases h <;> rfl

/-- Objects are told apart alike. -/
theorem object_eq_iff (hw : g.Worlds M w w') {i i' j j' : Nat} (hi : M.objects[i]? = some i')
    (hj : M.objects[j]? = some j') : i' = j' ↔ i = j := by
  refine ⟨fun e => ?_, fun e => ?_⟩
  · subst e
    obtain ⟨hlt, hi⟩ := List.getElem?_eq_some_iff.1 hi
    obtain ⟨hlt', hj⟩ := List.getElem?_eq_some_iff.1 hj
    exact (List.Nodup.getElem_inj_iff hw.objectNodup).1 (hi.trans hj.symm)
  · subst e
    exact Option.some.inj (hi.symm.trans hj)

/-- An object made in the run is none of the ground. -/
theorem object_ne (hw : g.Worlds M w w') {o : ObjectRef} (ho : (Value.object o).Known g.world.heap) {i i' : Nat}
    (hi : M.objects[i]? = some i') (cls : Class) :
    o ≠ ⟨g.world.heap.objects.size + i, cls⟩ ∧ o ≠ ⟨i', cls⟩ := by
  have hlt := ho.object_lt
  have hle := hw.objectImage i' (List.mem_of_getElem? hi)
  refine ⟨fun e => ?_, fun e => ?_⟩
  · rw [e] at hlt
    exact absurd hlt (by simp)
  · rw [e] at hlt
    exact absurd hlt (by simpa using hle)

theorem same_eq (ha : g.Alike M a a') (hb : g.Alike M b b') (hw : g.Worlds M w w') : a'.same b' = a.same b := by
  cases ha with
  | known hv =>
    cases hb with
    | known _ => rfl
    | object cls hi =>
      cases a with
      | object o =>
        obtain ⟨hne, hne'⟩ := object_ne hw hv hi cls
        simp only [Value.same, beq_eq_false_iff_ne.2 hne, beq_eq_false_iff_ne.2 hne']
      | _ => rfl
    | _ =>
      have := hv.isData
      cases a <;> first | rfl | cases this
  | object cls hi =>
    cases hb with
    | known hv =>
      cases b with
      | object o =>
        obtain ⟨hne, hne'⟩ := object_ne hw hv hi cls
        simp only [Value.same, beq_eq_false_iff_ne.2 hne.symm, beq_eq_false_iff_ne.2 hne'.symm]
      | _ => rfl
    | object cls' hj =>
      rw [Value.same, Value.same, Bool.eq_iff_iff]
      simp only [beq_iff_eq, ObjectRef.mk.injEq, object_eq_iff hw hi hj, Nat.add_left_cancel_iff]
    | _ => rfl
  | _ =>
    cases hb with
    | known hv =>
      have := hv.isData
      cases b <;> first | rfl | cases this
    | _ => rfl

end Alike

end Ground

/-! ## Operations on values -/

namespace Cause

variable (h : Heap) (v l r : Value)

@[simp] theorem message_nullReference :
    nullReference.message h = "Object reference not set to an instance of an object" := rfl

@[simp] theorem message_operatorOn (op : ArithOp) (ty : Ty) : (misuse (.operatorOn op ty)).message h =
    "operator " ++ op.name ++ " is not defined for " ++ ty.text := rfl

@[simp] theorem message_operatorFor (op : ArithOp) : (misuse (.operatorFor op l r)).message h =
    "operator " ++ op.name ++ " is not defined for " ++ l.describe h ++ " and " ++ r.describe h := rfl

@[simp] theorem message_shiftAmount : (misuse .shiftAmount).message h = "shift amount must be an integer" := rfl

@[simp] theorem message_shift : (misuse (.shift v)).message h = "cannot shift " ++ v.describe h := rfl

@[simp] theorem message_complement : (misuse (.complement v)).message h = "cannot complement " ++ v.describe h := rfl

@[simp] theorem message_notCallable : (misuse (.notCallable v)).message h = v.describe h ++ " is not callable" := rfl

@[simp] theorem message_argumentCount (callee : String) (expected given : Nat) :
    (misuse (.argumentCount callee expected given)).message h =
      s!"{callee} expects {expected} arguments, got {given}" := rfl

@[simp] theorem message_closurePresence (callee : String) (given : Bool) :
    (misuse (.closurePresence callee given)).message h =
      callee ++ " called " ++ (if given then "with" else "without") ++ " a closure" := rfl

@[simp] theorem message_invalidCast (ty : Ty) : (invalidCast v ty).message h =
    "Unable to cast " ++ v.describe h ++ " to " ++ ty.text := rfl

end Cause

namespace Value

variable {a b v : Value} {c : Cause} {op : ArithOp}

theorem describe_congr (hv : v.isImmediate = true) (h h' : Heap) : v.describe h' = v.describe h := by
  cases v <;> first | rfl | (simp only [describe, text, textAt_eq, textWith]; done) | cases hv

theorem complement_opaque (hv : v.isImmediate = false) : v.complement = .error (.misuse (.complement v)) := by
  cases v <;> first | rfl | cases hv

theorem complement_plain (hv : v.isImmediate = true) (hr : v.complement = .error c) (h h' : Heap) :
    c.message h' = c.message h := by
  unfold complement at hr
  split at hr
  · cases hr
  · cases hr
  · cases hr
  · obtain rfl := Except.error.inj hr
    simp [describe_congr hv h h']

theorem shiftAmount_plain (hr : v.shiftAmount = .error c) (h h' : Heap) : c.message h' = c.message h := by
  unfold shiftAmount at hr
  split at hr
  · split at hr
    · cases hr
    · obtain rfl := Except.error.inj hr
      simp
  · obtain rfl := Except.error.inj hr
    simp

theorem shift_left (ha : a.isImmediate = false) (op : ArithOp) :
    shift op a b = if b.isNull then .ok .null else
      match b.shiftAmount with
      | .ok _ => .error (.misuse (.shift a))
      | .error c => .error c := by
  cases b with
  | int n =>
    simp only [shift, isNull]
    cases (int n).shiftAmount with
    | error c => rfl
    | ok k => cases a <;> first | rfl | cases ha
  | _ => rfl

/-- An operand on the left that is neither null nor a primitive. -/
theorem arith_left (ha : a.isImmediate = false) (op : ArithOp) (mode : Overflow) :
    a.arith op b mode = if b.isNull then .ok .null else if op.isShift then
      match b.shiftAmount with
      | .ok _ => .error (.misuse (.shift a))
      | .error c => .error c
      else .error (.misuse (.operatorFor op a b)) := by
  unfold arith
  cases op.isShift
  · cases b <;> cases a <;> first | rfl | cases ha
  · exact shift_left ha op

/-- An operand on the right that is neither null nor a primitive. -/
theorem arith_right (hb : b.isImmediate = false) (op : ArithOp) (mode : Overflow) :
    a.arith op b mode = if op.isShift then .error (.misuse .shiftAmount) else if a.isNull then .ok .null
      else .error (.misuse (.operatorFor op a b)) := by
  unfold arith
  cases op.isShift
  · cases a <;> cases b <;> first | rfl | cases hb
  · cases b <;> first | rfl | cases hb

theorem shift_plain (ha : a.isImmediate = true) (hr : shift op a b = .error c) (h h' : Heap) :
    c.message h' = c.message h := by
  unfold shift at hr
  split at hr
  · cases hr
  · split at hr
    · obtain rfl := Except.error.inj hr
      exact shiftAmount_plain ‹_› h h'
    · split at hr
      · cases hr
      · cases hr
      · obtain rfl := Except.error.inj hr
        simp [describe_congr ha h h']

theorem ofWord_plain {r : Except ArithError Word} (hr : ofWord r = .error c) (h h' : Heap) :
    c.message h' = c.message h := by
  rcases r with (_ | _) | _ <;> cases hr <;> rfl

theorem floatArith_plain {x y : Float} (hr : floatArith op x y = .error c) (h h' : Heap) :
    c.message h' = c.message h := by
  cases op <;> cases hr <;> simp

theorem boolArith_plain {x y : Bool} (hr : boolArith op x y = .error c) (h h' : Heap) :
    c.message h' = c.message h := by
  cases op <;> cases hr <;> simp

/-- What primitives are refused with does not depend on the heap. -/
theorem arith_plain (ha : a.isImmediate = true) (hb : b.isImmediate = true) {mode : Overflow}
    (hr : a.arith op b mode = .error c) (h h' : Heap) : c.message h' = c.message h := by
  have hfor : (Cause.misuse (.operatorFor op a b)).message h' = (Cause.misuse (.operatorFor op a b)).message h := by
    simp [describe_congr ha h h', describe_congr hb h h']
  unfold arith at hr
  split at hr
  · exact shift_plain ha hr h h'
  · split at hr
    · cases hr
    · cases hr
    · split at hr
      · exact ofWord_plain hr h h'
      · obtain rfl := Except.error.inj hr
        exact hfor
    · exact floatArith_plain hr h h'
    · exact boolArith_plain hr h h'
    · obtain rfl := Except.error.inj hr
      exact hfor

theorem order?_left (ha : a.isImmediate = false) : a.order? b = none := by
  cases a <;> first | rfl | cases ha

end Value

namespace Ground

variable {g : Ground} {M : Mirror} {w w' : World}

/-- Causes that give exceptions of one class with one message. -/
structure Causes (g : Ground) (M : Mirror) (c c' : Cause) : Prop where
  cls : c'.cls = c.cls
  message : ∀ w w', g.Worlds M w w' → c'.message w'.heap = c.message w.heap

/-- Outcomes of operations that stand for each other. -/
inductive Settles (g : Ground) (M : Mirror) : Except Cause Value → Except Cause Value → Prop
  | ok {v v' : Value} (h : g.Alike M v v') : Settles g M (.ok v) (.ok v')
  | error {c c' : Cause} (h : g.Causes M c c') : Settles g M (.error c) (.error c')

theorem causes_refl {c : Cause} (h : ∀ h h' : Heap, c.message h' = c.message h) : g.Causes M c c :=
  ⟨rfl, fun w w' _ => h w.heap w'.heap⟩

namespace Alike

variable {a a' b b' v v' : Value}

theorem unbox (h : g.Alike M v v') (ty : Ty) : g.Settles M (v.unbox ty) (v'.unbox ty) := by
  rw [Value.unbox, Value.unbox, h.isNull_eq, h.hasType_eq]
  split
  · split
    · exact .ok h
    · exact .error (causes_refl fun _ _ => by simp)
  · split
    · exact .ok h
    · exact .error ⟨rfl, fun w w' hw => by simp [h.describe_eq hw]⟩

theorem castClass (h : g.Alike M v v') (ty : Ty) : g.Settles M (v.castClass ty) (v'.castClass ty) := by
  rw [Value.castClass, Value.castClass, h.isNull_eq, h.hasType_eq]
  split
  · exact .ok h
  · exact .error ⟨rfl, fun w w' hw => by simp [h.describe_eq hw]⟩

theorem complement (h : g.Alike M v v') : g.Settles M v.complement v'.complement := by
  cases hv : v.isImmediate with
  | true =>
    have := h.eq_of_isImmediate hv
    subst this
    cases hr : v'.complement with
    | ok r => exact .ok (alike_of_isImmediate (Value.complement_isImmediate hr))
    | error c => exact .error (causes_refl (Value.complement_plain hv hr))
  | false =>
    rw [Value.complement_opaque hv, Value.complement_opaque (h.isImmediate_eq.trans hv)]
    exact .error ⟨rfl, fun w w' hw => by simp [h.describe_eq hw]⟩

theorem shiftAmount_eq (h : g.Alike M v v') : v'.shiftAmount = v.shiftAmount := by
  cases h <;> rfl

theorem arith (ha : g.Alike M a a') (hb : g.Alike M b b') (op : ArithOp) (mode : Overflow) :
    g.Settles M (a.arith op b mode) (a'.arith op b' mode) := by
  have hcause : g.Settles M (.error (.misuse (.operatorFor op a b))) (.error (.misuse (.operatorFor op a' b'))) :=
    .error ⟨rfl, fun w w' hw => by
      simp [ha.describe_eq hw, hb.describe_eq hw]⟩
  cases hia : a.isImmediate with
  | false =>
    rw [Value.arith_left hia, Value.arith_left (ha.isImmediate_eq.trans hia), hb.isNull_eq, hb.shiftAmount_eq]
    split
    · exact .ok (alike_of_isImmediate rfl)
    · split
      · split
        · exact .error ⟨rfl, fun w w' hw => by simp [ha.describe_eq hw]⟩
        · exact .error (causes_refl (Value.shiftAmount_plain ‹_›))
      · exact hcause
  | true =>
    have := ha.eq_of_isImmediate hia
    subst this
    cases hib : b.isImmediate with
    | false =>
      rw [Value.arith_right hib, Value.arith_right (hb.isImmediate_eq.trans hib)]
      split
      · exact .error (causes_refl fun _ _ => by simp)
      · split
        · exact .ok (alike_of_isImmediate rfl)
        · exact hcause
    | true =>
      have := hb.eq_of_isImmediate hib
      subst this
      cases hr : a'.arith op b' mode with
      | ok r => exact .ok (alike_of_isImmediate (Value.arith_isImmediate hr))
      | error c => exact .error (causes_refl (Value.arith_plain hia hib hr))

theorem order_eq (ha : g.Alike M a a') (hb : g.Alike M b b') : a'.order? b' = a.order? b := by
  cases hia : a.isImmediate with
  | true =>
    rw [ha.eq_of_isImmediate hia]
    cases hb with
    | known _ => rfl
    | _ => cases a <;> rfl
  | false =>
    rw [Value.order?_left hia, Value.order?_left (ha.isImmediate_eq.trans hia)]

theorem compareBy_eq (ha : g.Alike M a a') (hb : g.Alike M b b') (hw : g.Worlds M w w') (op : CmpOp) :
    a'.compareBy op b' = a.compareBy op b := by
  simp only [Value.compareBy, ha.isNull_eq, hb.isNull_eq, ha.order_eq hb, ha.same_eq hb hw]

theorem asCallable (h : g.Alike M v v') :
    (∃ f f', v.asCallable = .ok f ∧ v'.asCallable = .ok f' ∧ g.Alike M (.func f) (.func f')) ∨
      ∃ c c', v.asCallable = .error c ∧ v'.asCallable = .error c' ∧ g.Causes M c c' := by
  have hcause : g.Causes M (.misuse (.notCallable v)) (.misuse (.notCallable v')) :=
    ⟨rfl, fun w w' hw => by simp [h.describe_eq hw]⟩
  cases h with
  | known hv =>
    have := hv.isData
    cases v with
    | func _ => cases this
    | null => exact .inr ⟨_, _, rfl, rfl, causes_refl fun _ _ => by simp⟩
    | _ => exact .inr ⟨_, _, rfl, rfl, hcause⟩
  | bare hu => exact .inl ⟨_, _, rfl, rfl, .bare hu⟩
  | bound hu hi => exact .inl ⟨_, _, rfl, rfl, .bound hu hi⟩
  | _ => exact .inr ⟨_, _, rfl, rfl, hcause⟩

end Alike

end Ground

end ExprCompiler
