/-
Types of converted values. A planned conversion gives a value of the target type, or one of its steps throws for a
reason that belongs to it: a number out of range, an empty nullable, or a value that is not of the type it is read as.
-/
import ExprCompiler.Conversion
import ExprCompiler.Proofs.Arithmetic.Words
import ExprCompiler.Proofs.Typing.Operators

namespace ExprCompiler

/-! ## References -/

theorem Class.derivesFrom_trans : ∀ {a b c : Class}, a.derivesFrom b = true → b.derivesFrom c = true →
    a.derivesFrom c = true
  | .mk i n v base fs, b, c, hab, hbc => by
    unfold derivesFrom at hab ⊢
    rw [Bool.or_eq_true, beq_iff_eq] at hab
    rcases hab with rfl | hup
    · unfold derivesFrom at hbc
      exact hbc
    · cases base with
      | none => cases hup
      | some p => exact Bool.or_eq_true_iff.2 (.inr (derivesFrom_trans hup hbc))

/-- What a reference type accepts; a value with inline fields is of no class of shared instances. -/
theorem Value.hasType_of_accepts {v : Value} {source target : Ty} (h : target.accepts source = true)
    (hsource : source.isReference = true) (htarget : target.admitsNull = true) (hv : v.hasType source = true)
    (hstruct : ∀ c fields, v = .struct c fields → c.isValueType = true) : v.hasType target = true := by
  unfold Ty.accepts at h
  rw [Bool.or_eq_true, beq_iff_eq] at h
  rcases h with rfl | h
  · exact hv
  · split at h
    · exact hasType_object v
    · next c d =>
      cases v with
      | null => exact (hasType_null _).trans htarget
      | object o => exact Class.derivesFrom_trans hv h
      | struct e fields =>
        obtain rfl : e = d := by simpa [hasType] using hv
        simp [Ty.isReference, Ty.isValueType, hstruct e fields rfl] at hsource
      | _ => cases hv
    · cases h

theorem Value.unbox_eq_ite (v : Value) (ty : Ty) : v.unbox ty =
    if v.hasType ty then .ok v else .error (if v.isNull then .nullReference else .invalidCast v ty) := by
  by_cases hnull : v = .null
  · subst hnull
    simp [unbox, hasType_null, isNull]
  · simp [unbox, isNull_eq_false hnull]

/-- A type that null passes to must admit it. -/
theorem Value.castClass_eq_ite (v : Value) {ty : Ty} (hadmits : ty.admitsNull = true) : v.castClass ty =
    if v.hasType ty then .ok v else .error (if v.isNull then .nullReference else .invalidCast v ty) := by
  by_cases hnull : v = .null
  · subst hnull
    simp [castClass, hasType_null, isNull, hadmits]
  · simp [castClass, isNull_eq_false hnull]

/-! ## Numbers -/

theorem Ty.admitsNull_of_isNumeric {ty : Ty} (h : ty.nonNullable.isNumeric = true) :
    ty.admitsNull = ty.isNullable :=
  admitsNull_of_isPrimitive (by revert h; cases ty.nonNullable <;> simp [isNumeric, isPrimitive])

theorem Overflow.isChecked_select (checked : Bool) (ty : Ty) : (select checked ty).isChecked = checked := by
  cases checked
  · rfl
  · cases h : ty.nonNullable.isUnsigned <;> simp [select, h] <;> rfl

theorem Double.toWord?_cases (k : IntKind) (x : Float) :
    (∃ w, toWord? k x = .ok w ∧ w.kind = k) ∨ toWord? k x = .error .overflow := by
  unfold toWord?
  split
  · dsimp only
    split
    · exact .inl ⟨_, rfl, Word.kind_ofInt k _⟩
    · exact .inr rfl
  · exact .inr rfl

/-- A number converts to a value of a numeric type, or is out of the range that a checked conversion looks at. -/
theorem Value.convert_typed {v : Value} {source target : Ty} (mode : Overflow) (hs : source.isNumeric = true)
    (ht : target.isNumeric = true) (hv : v.hasType source = true) :
    match v.convert target mode with
    | .ok u => u.hasType target = true
    | .error c => mode.isChecked = true ∧ c = .overflow := by
  have hnumber : (∃ w, v = .int w) ∨ ∃ x, v = .f64 x := by
    cases source <;> cases hs <;> cases v <;> first | exact .inl ⟨_, rfl⟩ | exact .inr ⟨_, rfl⟩ | cases hv
  cases target <;> cases ht
  case f64 => obtain ⟨w, rfl⟩ | ⟨x, rfl⟩ := hnumber <;> rfl
  case int k =>
    have hword : ∀ w : Word, w.kind = k → (Value.int w).hasType (.int k) = true := fun w hw => by simp [hasType, hw]
    obtain ⟨w, rfl⟩ | ⟨x, rfl⟩ := hnumber
    · have h : Exact _ _ _ _ ((Value.int w).convert (.int k) mode) := exact_convert w rfl mode
      unfold Exact at h
      split at h
      · next hout => exact h ▸ ⟨hout.1, rfl⟩
      · obtain ⟨u, hu, hkind, -⟩ := h
        exact hu ▸ hword u hkind
    · simp only [convert, Ty.nonNullable, toKind]
      cases hchecked : mode.isChecked
      · exact hword _ (Word.kind_ofInt k _)
      · obtain ⟨u, hu, hkind⟩ | hu := Double.toWord?_cases k x
        · simpa only [if_true, hu, ofWord] using hword u hkind
        · simp only [if_true, hu, ofWord]
          exact ⟨trivial, rfl⟩

/-! ## Plans -/

/-- The reasons for which a step of a plan throws when it is applied to `v`. -/
def ConvStep.Throws (checked : Bool) (v : Value) (c : Cause) : ConvStep → Prop
  | .numeric _ _ => checked = true ∧ c = .overflow
  | .unwrap => v = .null ∧ c = .misuse .emptyNullable
  | .unbox ty | .cast ty => v.hasType ty = false ∧ c = if v.isNull then .nullReference else .invalidCast v ty

/-- Steps take `v` to a value of type `ty`, or one of them throws for a reason of its own. -/
def Converts (checked : Bool) (v : Value) (steps : List ConvStep) (ty : Ty) : Prop :=
  match applyConversion v steps with
  | .ok u => u.hasType ty = true
  | .error c => ∃ before step after u, steps = before ++ step :: after ∧ applyConversion v before = .ok u ∧
      step.apply u = .error c ∧ step.Throws checked u c

namespace Converts

variable {checked : Bool} {v : Value} {ty : Ty}

theorem nil (h : v.hasType ty = true) : Converts checked v [] ty := h

theorem cons {step : ConvStep} {rest : List ConvStep} (h : match step.apply v with
    | .ok u => Converts checked u rest ty
    | .error c => step.Throws checked v c) : Converts checked v (step :: rest) ty := by
  unfold Converts applyConversion
  rw [List.foldlM_cons]
  rcases hstep : step.apply v with c | u <;> rw [hstep] at h
  · exact ⟨[], step, rest, v, rfl, rfl, hstep, h⟩
  · have h : Converts checked u rest ty := h
    unfold Converts applyConversion at h
    show match rest.foldlM ConvStep.apply u with | .ok u => _ | .error c => _
    rcases hrest : rest.foldlM ConvStep.apply u with c | r <;> rw [hrest] at h
    · obtain ⟨before, last, after, u', rfl, hbefore, hlast⟩ := h
      refine ⟨step :: before, last, after, u', rfl, ?_, hlast⟩
      rw [List.foldlM_cons, hstep]
      exact hbefore
    · exact h

/-- A test of the value's type. -/
theorem typeTest {step : ConvStep} (hstep : step = .unbox ty ∨ step = .cast ty) (happly : step.apply v =
    if v.hasType ty then .ok v else .error (if v.isNull then .nullReference else .invalidCast v ty)) :
    Converts checked v [step] ty := by
  refine cons ?_
  rw [happly]
  cases htype : v.hasType ty
  · obtain rfl | rfl := hstep <;> exact ⟨htype, rfl⟩
  · exact nil htype

theorem unwrap {rest : List ConvStep} (h : v ≠ .null → Converts checked v rest ty) :
    Converts checked v (.unwrap :: rest) ty := by
  refine cons ?_
  by_cases hnull : v = .null
  · subst hnull
    exact ⟨rfl, rfl⟩
  · have hunwrap : v.unwrap = .ok v := by cases v <;> first | rfl | exact absurd rfl hnull
    simpa only [ConvStep.apply, hunwrap] using h hnull

/-- Plans between numbers. -/
theorem numeric {source target : Ty} {steps : List ConvStep} (hplan : numericPlan? source target checked = some steps)
    (hv : v.hasType source = true) : Converts checked v steps target := by
  simp only [numericPlan?, Bool.and_eq_true] at hplan
  split at hplan
  case isFalse => cases hplan
  case isTrue hnumeric =>
    have hstep : v ≠ .null →
        Converts checked v [.numeric target.nonNullable (.select checked source.nonNullable)] target := by
      intro hnull
      rw [← Value.hasType_nonNullable hnull] at hv
      refine cons ?_
      have h := Value.convert_typed (.select checked source.nonNullable) hnumeric.1 hnumeric.2 hv
      simp only [ConvStep.apply]
      revert h
      split
      · exact fun h => nil (Value.hasType_of_nonNullable h)
      · exact fun h => ⟨(Overflow.isChecked_select _ _).symm.trans h.1, h.2⟩
    cases hplan
    split
    · exact unwrap hstep
    · next hlifted =>
      by_cases hnull : v = .null
      · subst hnull
        refine cons (nil ?_)
        rw [Value.hasType_null, Ty.admitsNull_of_isNumeric hnumeric.1] at hv
        rw [Value.hasType_null, Ty.admitsNull_of_isNumeric hnumeric.2]
        simpa [hv] using hlifted
      · exact hstep hnull

/-- Plans between references, into and out of a box. -/
theorem reference {source target : Ty} {steps : List ConvStep} (hplan : referencePlan? source target = some steps)
    (hv : v.hasType source = true) (hstruct : ∀ c fields, v = .struct c fields → c.isValueType = true) :
    Converts checked v steps target := by
  unfold referencePlan? at hplan
  split at hplan
  · split at hplan <;> cases hplan
    next htarget => exact nil (htarget ▸ v.hasType_object)
  · split at hplan <;> cases hplan
    exact typeTest (.inl rfl) (v.unbox_eq_ite target)
  · next hsource htarget =>
    have hadmits : target.admitsNull = true := by simp [Ty.admitsNull, htarget]
    split at hplan
    · cases hplan
      next haccepts => exact nil (Value.hasType_of_accepts haccepts hsource hadmits hv hstruct)
    · split at hplan <;> cases hplan
      exact typeTest (.inr rfl) (v.castClass_eq_ite hadmits)
  · cases hplan

end Converts

/-- A planned conversion is sound: it gives a value of the target type, or a step throws for a reason of its own. -/
theorem applyConversion_sound {source target : Ty} {checked : Bool} {steps : List ConvStep}
    (hplan : planConversion? source target checked = some steps) {v : Value} (hv : v.hasType source = true)
    (hstruct : ∀ c fields, v = .struct c fields → c.isValueType = true) : Converts checked v steps target := by
  unfold planConversion? at hplan
  split at hplan
  · next hsame =>
    cases hplan
    rw [Bool.or_eq_true, decide_eq_true_iff, decide_eq_true_iff] at hsame
    obtain rfl | rfl := hsame
    · exact .nil hv
    · exact .nil (Value.hasType_of_nonNullable hv)
  · split at hplan
    · next hnullable =>
      cases hplan
      subst hnullable
      exact .unwrap fun hnull => .nil ((Value.hasType_nonNullable hnull _).trans hv)
    · split at hplan
      · exact .numeric hplan hv
      · exact .reference hplan hv hstruct

theorem applyConversion_sound_narrowing :
    planConversion? (.nullable (.int .i64)) (.int .i32) true = some [.unwrap, .numeric (.int .i32) .signed] ∧
      (Value.i64 300).hasType (.nullable (.int .i64)) = true ∧
      Converts true (.i64 300) [.unwrap, .numeric (.int .i32) .signed] (.int .i32) := by
  have hplan : planConversion? (.nullable (.int .i64)) (.int .i32) true =
    some [.unwrap, .numeric (.int .i32) .signed] := rfl
  exact ⟨hplan, rfl, applyConversion_sound hplan rfl nofun⟩

end ExprCompiler
