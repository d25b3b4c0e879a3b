/-
Values that may leave a frame. An address points into the frame of a running machine and means nothing
outside of it; the host, the heap and the evaluator deal in values that hold none. The operations that
the evaluator and the machine share keep to such values, and a heap that holds only such values goes on
to do so.
-/
import ExprCompiler.Operation
import Mathlib.Tactic

namespace ExprCompiler

/-- A value holds no address, and the functions in it are among `F`. -/
inductive Value.Portable (F : Callable → Prop) : Value → Prop
  | null : Portable F .null
  | bool (b : Bool) : Portable F (.bool b)
  | int (w : Word) : Portable F (.int w)
  | f64 (x : Float) : Portable F (.f64 x)
  | str (s : String) : Portable F (.str s)
  | token (ty : Ty) : Portable F (.token ty)
  | object (ref : ObjectRef) : Portable F (.object ref)
  | array (ref : ArrayRef) : Portable F (.array ref)
  | code (unit : UnitRef) : Portable F (.code unit)
  | closure (ref : ClosureRef) : Portable F (.closure ref)
  | func {f : Callable} (h : F f) : Portable F (.func f)
  | struct (cls : Class) {fields : List Value} (h : ∀ v ∈ fields, Portable F v) : Portable F (.struct cls fields)

namespace Value

variable {F : Callable → Prop} {v v' : Value} {op : ArithOp} {mode : Overflow}

theorem Portable.ne_addr (h : v.Portable F) (a : Place FrameVar) : v ≠ .addr a := by
  rintro rfl
  cases h

theorem Portable.callable {f : Callable} (h : (Value.func f).Portable F) : F f := by
  cases h
  assumption

theorem Portable.field {cls : Class} {fields : List Value} (h : (Value.struct cls fields).Portable F) :
    ∀ v ∈ fields, v.Portable F := by
  cases h
  assumption

theorem portable_of_isImmediate (h : v.isImmediate = true) : v.Portable F := by
  cases v with
  | null => exact .null
  | bool b => exact .bool b
  | int w => exact .int w
  | f64 x => exact .f64 x
  | str s => exact .str s
  | token ty => exact .token ty
  | object _ | struct _ _ | array _ | func _ | code _ | closure _ | addr _ => cases h

/-! ## Operators and conversions -/

theorem ofWord_isImmediate {r : Except ArithError Word} (h : ofWord r = .ok v) : v.isImmediate = true := by
  cases r with
  | ok w => cases h; rfl
  | error e => cases h

theorem shift_isImmediate {a b : Value} (h : shift op a b = .ok v) : v.isImmediate = true := by
  unfold shift at h
  split at h
  · cases h
    rfl
  · split at h
    · cases h
    · split at h
      · cases h
        rfl
      · cases h
        rfl
      · cases h

theorem floatArith_isImmediate {x y : Float} (h : floatArith op x y = .ok v) : v.isImmediate = true := by
  cases op <;> cases h <;> rfl

theorem boolArith_isImmediate {x y : Bool} (h : boolArith op x y = .ok v) : v.isImmediate = true := by
  cases op <;> cases h <;> rfl

/-- Arithmetic gives primitives. -/
theorem arith_isImmediate {a b : Value} (h : a.arith op b mode = .ok v) :
    v.isImmediate = true := by
  unfold arith at h
  split at h
  · exact shift_isImmediate h
  · split at h
    · cases h
      rfl
    · cases h
      rfl
    · split at h
      · exact ofWord_isImmediate h
      · cases h
    · exact floatArith_isImmediate h
    · exact boolArith_isImmediate h
    · cases h

theorem negate_isImmediate (h : v.negate mode = .ok v') : v'.isImmediate = true := by
  unfold negate at h
  split at h
  · cases h
    rfl
  · exact ofWord_isImmediate h
  · cases h
    rfl
  · cases h

theorem complement_isImmediate (h : v.complement = .ok v') : v'.isImmediate = true := by
  unfold complement at h
  split at h
  · cases h
    rfl
  · cases h
    rfl
  · cases h
    rfl
  · cases h

theorem toKind_isImmediate {k : IntKind} (hv : v.isImmediate = true)
    (h : toKind k mode v = .ok v') : v'.isImmediate = true := by
  unfold toKind at h
  split at h
  · exact ofWord_isImmediate h
  · split at h
    · exact ofWord_isImmediate h
    · cases h
      rfl
  · cases h
    exact hv

theorem convert_isImmediate {ty : Ty} (h : v.convert ty mode = .ok v') : v'.isImmediate = true := by
  unfold convert at h
  split at h
  · cases h
    rfl
  · split at h
    · cases h
      rfl
    · cases h
  · split at h
    · exact toKind_isImmediate rfl h
    · cases h
      rfl
    · cases h
  · split at h
    · exact toKind_isImmediate rfl h
    · cases h
      rfl
    · cases h
  · cases h

/-- Reading the value inside a nullable, a box or a reference gives that value. -/
theorem unwrap_eq (h : v.unwrap = .ok v') : v' = v := by
  unfold unwrap at h
  split at h
  · cases h
  · cases h
    rfl

theorem unbox_eq {ty : Ty} (h : v.unbox ty = .ok v') : v' = v := by
  unfold unbox at h
  split at h
  · split at h
    · cases h
      rfl
    · cases h
  · split at h
    · cases h
      rfl
    · cases h

theorem castClass_eq {ty : Ty} (h : v.castClass ty = .ok v') : v' = v := by
  unfold castClass at h
  split at h
  · cases h
    rfl
  · cases h

end Value

/-! ## Zeros -/

section

variable {F : Callable → Prop}

mutual

/-- Locations start with values that hold no address. -/
theorem Ty.portable_zero : ∀ ty : Ty, ty.zero.Portable F
  | .bool => .bool false
  | .int k => .int (.ofInt k 0)
  | .f64 => .f64 0.0
  | .cls c => Class.portable_zero c
  | .void | .str | .object | .token | .array _ | .nullable _ | .func _ _ => .null

theorem Class.portable_zero : ∀ c : Class, c.zero.Portable F
  | .mk serial name valueType base fields => by
    rw [Class.zero]
    split
    · exact .struct _ (Field.portable_zeros fields)
    · exact .null

theorem Field.portable_zeros : ∀ fs : List Field, ∀ v ∈ Field.zeros fs, v.Portable F
  | [], v, h => by rw [Field.zeros] at h; cases h
  | .mk name ty :: fs, v, h => by
    rw [Field.zeros, Field.zero] at h
    rcases List.mem_cons.1 h with rfl | h
    · exact Ty.portable_zero ty
    · exact Field.portable_zeros fs v h

end

end

/-! ## Heaps -/

/-- A heap holds only values without addresses. -/
structure Heap.Portable (F : Callable → Prop) (h : Heap) : Prop where
  objects : ∀ fs ∈ h.objects, ∀ v ∈ fs, v.Portable F
  arrays : ∀ xs ∈ h.arrays, ∀ v ∈ xs, v.Portable F
  statics : ∀ v ∈ h.statics, v.Portable F

namespace Heap

variable {F : Callable → Prop} {h h' : Heap} {v v' : Value} {i : Nat} (hp : h.Portable F)

include hp

theorem Portable.fields (o : ObjectRef) : ∀ v ∈ h.fields o, v.Portable F := by
  intro v hv
  unfold Heap.fields at hv
  rcases ho : h.objects[o.id]? with _ | fs <;> rw [ho] at hv
  · simp at hv
  · exact hp.objects fs (Array.mem_of_getElem? ho) v hv

theorem Portable.items (a : ArrayRef) : ∀ v ∈ h.items a, v.Portable F := by
  intro v hv
  unfold Heap.items at hv
  rcases ha : h.arrays[a.id]? with _ | xs <;> rw [ha] at hv
  · simp at hv
  · exact hp.arrays xs (Array.mem_of_getElem? ha) v hv

theorem Portable.loadStatic (s : StaticRef) : (h.loadStatic s).Portable F := by
  unfold Heap.loadStatic
  rcases hs : h.statics[s.id]? with _ | v
  · exact .null
  · exact hp.statics v (Array.mem_of_getElem? hs)

theorem Portable.newObject {cls : Class} {fields : Array Value}
    (hf : ∀ v ∈ fields, v.Portable F) : (h.newObject cls fields).2.Portable F where
  objects fs hfs := by
    rcases Array.mem_push.1 hfs with hfs | rfl
    · exact hp.objects fs hfs
    · exact hf
  arrays := hp.arrays
  statics := hp.statics

theorem Portable.newArray (elem : Ty) {items : Array Value} (hi : ∀ v ∈ items, v.Portable F) :
    (h.newArray elem items).2.Portable F where
  objects := hp.objects
  arrays xs hxs := by
    rcases Array.mem_push.1 hxs with hxs | rfl
    · exact hp.arrays xs hxs
    · exact hi
  statics := hp.statics

/-- The exception object of a cause holds its message only. -/
theorem Portable.raise (c : Cause) : (h.raise c).2.Portable F := by
  refine hp.newObject fun v hv => ?_
  obtain rfl : v = .str (c.message h) := by simpa using hv
  exact .str _

omit hp in
theorem mem_of_mem_setIfInBounds {xs : Array Value} (hv : v ∈ xs.setIfInBounds i v') : v ∈ xs ∨ v = v' := by
  rw [Array.setIfInBounds] at hv
  split at hv
  · exact Array.mem_or_eq_of_mem_set hv
  · exact .inl hv

omit hp in
/-- A write into one row of a table. -/
theorem mem_of_mem_modify {rows : Array (Array Value)} {k : Nat} {row : Array Value}
    (hrow : row ∈ rows.modify k fun xs => xs.setIfInBounds i v') (hv : v ∈ row) : (∃ r ∈ rows, v ∈ r) ∨ v = v' := by
  obtain ⟨j, hj⟩ := Array.getElem?_of_mem hrow
  rw [Array.getElem?_modify] at hj
  split at hj
  · obtain ⟨r, hr, rfl⟩ := Option.map_eq_some_iff.1 hj
    exact (mem_of_mem_setIfInBounds hv).imp_left fun h => ⟨r, Array.mem_of_getElem? hr, h⟩
  · exact .inl ⟨row, Array.mem_of_getElem? hj, hv⟩

theorem Portable.setField (hv : v.Portable F) (o : ObjectRef) (i : Nat) :
    (h.setField o i v).Portable F where
  objects fs hfs u hu := by
    rcases mem_of_mem_modify hfs hu with ⟨r, hr, hur⟩ | rfl
    · exact hp.objects r hr u hur
    · exact hv
  arrays := hp.arrays
  statics := hp.statics

theorem Portable.setItem (hv : v.Portable F) (a : ArrayRef) (i : Nat) :
    (h.setItem a i v).Portable F where
  objects := hp.objects
  arrays xs hxs u hu := by
    rcases mem_of_mem_modify hxs hu with ⟨r, hr, hur⟩ | rfl
    · exact hp.arrays r hr u hur
    · exact hv
  statics := hp.statics

theorem Portable.storeStatic (hv : v.Portable F) (s : StaticRef) : (h.storeStatic s v).Portable F where
  objects := hp.objects
  arrays := hp.arrays
  statics u hu := by
    rcases mem_of_mem_setIfInBounds hu with hu | rfl
    · exact hp.statics u hu
    · exact hv

/-! ## Fields and elements -/

theorem Portable.loadField (hv : v.Portable F) (hr : h.loadField v i = .ok v') : v'.Portable F := by
  unfold Heap.loadField at hr
  split at hr
  · rename_i o
    split at hr
    · rename_i hget
      cases hr
      exact hp.fields o _ (Array.mem_of_getElem? hget)
    · cases hr
  · split at hr
    · rename_i hget
      cases hr
      exact hv.field _ (List.mem_of_getElem? hget)
    · cases hr
  · cases hr
  · cases hr

theorem Portable.storeField {r r' : Value} (hr : r.Portable F) (hv : v.Portable F)
    (hs : h.storeField r i v = .ok (r', h')) : r'.Portable F ∧ h'.Portable F := by
  unfold Heap.storeField at hs
  split at hs
  · split at hs
    · cases hs
      exact ⟨hr, hp.setField hv _ _⟩
    · cases hs
  · split at hs
    · cases hs
      refine ⟨.struct _ fun u hu => ?_, hp⟩
      rcases List.mem_or_eq_of_mem_set hu with hu | rfl
      · exact hr.field u hu
      · exact hv
    · cases hs
  · cases hs
  · cases hs

theorem Portable.arrayGet {a : Value} (hr : h.arrayGet a v = .ok v') : v'.Portable F := by
  unfold Heap.arrayGet at hr
  rcases hat : h.elementAt a v with c | ⟨ref, j⟩ <;> simp only [hat, bind, Except.bind] at hr
  · cases hr
  · cases hr
    rcases hj : (h.items ref)[j]? with _ | u
    · exact .null
    · exact hp.items ref u (Array.mem_of_getElem? hj)

theorem Portable.arraySet {a index : Value} (hv : v.Portable F)
    (hr : h.arraySet a index v = .ok h') : h'.Portable F := by
  unfold Heap.arraySet at hr
  rcases hat : h.elementAt a index with c | ⟨ref, j⟩ <;> simp only [hat, bind, Except.bind] at hr
  · cases hr
  · cases hr
    exact hp.setItem hv ref j

omit hp in
theorem arrayLength_isImmediate {a : Value} (hr : h.arrayLength a = .ok v) : v.isImmediate = true := by
  unfold Heap.arrayLength at hr
  rcases ha : a.asArray with c | ref <;> simp only [ha, bind, Except.bind] at hr
  · cases hr
  · cases hr
    rfl

theorem Portable.newArrayOfLength {elem : Ty} (hr : h.newArrayOfLength elem v = .ok (v', h')) :
    v'.Portable F ∧ h'.Portable F := by
  unfold Heap.newArrayOfLength at hr
  simp only at hr
  split at hr
  · cases hr
  · split at hr
    · cases hr
      refine ⟨.array _, hp.newArray elem fun u hu => ?_⟩
      rw [(Array.mem_replicate.1 hu).2]
      exact elem.portable_zero
    · cases hr

/-- Throwing null throws the exception of a null reference. -/
theorem Portable.thrown (hv : v.Portable F) :
    (v.thrown h).1.Portable F ∧ (v.thrown h).1 ≠ .null ∧ (v.thrown h).2.Portable F := by
  unfold Value.thrown
  split
  · exact ⟨.object _, by rintro ⟨⟩, hp.raise _⟩
  · rename_i hne
    exact ⟨hv, hne, hp⟩

end Heap

end ExprCompiler
