/-
Shifts and conversions of integers against exact arithmetic. A shift moves a number by its amount modulo the width; a
conversion keeps the number, reduces it to the width of the target or refuses it.
-/
import ExprCompiler.Proofs.Arithmetic.Exact

namespace ExprCompiler

/-! ## Shifts -/

namespace Word

/-- Both readings of a word agree modulo the number of words. -/
theorem number_modEq_toNat (signed : Bool) (w : Word) : w.number signed ≡ w.bits.toNat [ZMOD 2 ^ w.kind.width] := by
  cases signed
  · exact Int.ModEq.refl _
  · have h := Int.bmod_emod (x := w.bits.toNat) (m := 2 ^ w.kind.width)
    rw [← BitVec.toInt_eq_toNat_bmod] at h
    exact_mod_cast h

/-- The low bits of a 32-bit amount are the amount modulo the width: the width is a power of two that divides the
number of amounts. -/
theorem places_ofInt (w : Word) (n : Int) : w.places (.ofInt 32 n) = (n % w.kind.width).toNat := by
  have hmask : ∀ e, e ≤ 32 → (BitVec.ofInt 32 n).toNat &&& (2 ^ e - 1) = (n % (2 ^ e : Nat)).toNat := by
    intro e he
    have hdvd : ((2 ^ e : Nat) : Int) ∣ (2 ^ 32 : Nat) := Int.natCast_dvd_natCast.2 (Nat.pow_dvd_pow 2 he)
    rw [Nat.and_two_pow_sub_one_eq_mod, BitVec.toNat_ofInt, ← Int.emod_emod_of_dvd n hdvd]
    have hpos : (0 : Int) ≤ n % (2 ^ 32 : Nat) := Int.emod_nonneg n (by decide)
    exact (Int.toNat_emod hpos (Int.natCast_nonneg _)).symm
  unfold places
  cases w.kind with
  | i32 | u32 => exact hmask 5 (by decide)
  | i64 | u64 => exact hmask 6 (by decide)

theorem number_shiftLeft (signed : Bool) (w : Word) (n : BitVec 32) :
    (w.shiftLeft n).number signed ≡ w.number signed * 2 ^ w.places n [ZMOD 2 ^ w.kind.width] := by
  generalize hs : w.places n = s
  have hbits : ((w.shiftLeft n).bits.toNat : Int) = (w.bits.toNat * 2 ^ s : Int) % 2 ^ w.kind.width := by
    simp only [shiftLeft, hs, BitVec.toNat_shiftLeft, Nat.shiftLeft_eq]
    push_cast
    rfl
  calc (w.shiftLeft n).number signed
    _ ≡ (w.bits.toNat * 2 ^ s : Int) % 2 ^ w.kind.width [ZMOD 2 ^ w.kind.width] := hbits ▸ number_modEq_toNat signed _
    _ ≡ w.bits.toNat * 2 ^ s [ZMOD 2 ^ w.kind.width] := Int.mod_modEq _ _
    _ ≡ w.number signed * 2 ^ s [ZMOD 2 ^ w.kind.width] := (number_modEq_toNat signed w).symm.mul_right _

/-- A shift to the right is a division toward negative infinity, in the reading of the kind. -/
theorem number_shiftRight (w : Word) (n : BitVec 32) :
    (w.shiftRight n).number w.kind.signed = w.number w.kind.signed / 2 ^ w.places n := by
  cases hsigned : w.kind.signed
  · simp [number, shiftRight, hsigned, Nat.shiftRight_eq_div_pow]
  · simp [number, shiftRight, hsigned, Int.shiftRight_eq_div_pow]

theorem toI64?_eq (w : Word) :
    w.toI64? = if w.number w.kind.signed < 2 ^ 63 then some (w.number w.kind.signed) else none := by
  have hfits : IntKind.i64.Holds w.value ↔ w.number w.kind.signed < 2 ^ 63 := by
    have hin := number_inRange w.kind.signed w
    rw [value, readAs_eq_number, IntKind.holds_iff]
    generalize w.number w.kind.signed = n at hin ⊢
    unfold IntKind.InRange at *
    cases hk : w.kind <;> simp [hk, IntKind.signed, IntKind.width] at hin ⊢ <;> omega
  simp only [toI64?, hfits]
  rw [value, readAs_eq_number]

end Word

namespace Value

theorem arith_of_isShift (op : ArithOp) (hop : op.isShift = true) (x amount : Word) (mode : Overflow) :
    (Value.int x).arith op (.int amount) mode =
      let n := amount.number amount.kind.signed
      if n < 2 ^ 63 then .ok (.int (if op = .shl then x.shiftLeft (.ofInt 32 n) else x.shiftRight (.ofInt 32 n)))
      else .error (.misuse .shiftAmount) := by
  by_cases hn : amount.number amount.kind.signed < 2 ^ 63
  · simp only [arith, hop, shift, shiftAmount, Word.toI64?_eq, hn, if_true]
  · simp only [arith, hop, shift, shiftAmount, Word.toI64?_eq, hn, if_true, if_false]

/-- Shifts take every amount that a signed 64-bit integer can hold, modulo the width, and are exact: to the left
modulo the number of words, to the right toward negative infinity. Larger amounts are refused. -/
theorem arith_shift (x amount : Word) (mode : Overflow) :
    let n := amount.number amount.kind.signed
    let places := (n % x.kind.width).toNat
    let signed := x.kind.signed
    let result (op : ArithOp) := (Value.int x).arith op (.int amount) mode
    if n < 2 ^ 63 then
      (∃ l : Word, result .shl = .ok (.int l) ∧ l.kind = x.kind ∧
        l.number signed ≡ x.number signed * 2 ^ places [ZMOD 2 ^ x.kind.width]) ∧
      ∃ r : Word, result .shr = .ok (.int r) ∧ r.kind = x.kind ∧ r.number signed = x.number signed / 2 ^ places
    else result .shl = .error (.misuse .shiftAmount) ∧ result .shr = .error (.misuse .shiftAmount) := by
  intro n places signed result
  have hresult := fun op hop => arith_of_isShift op hop x amount mode
  by_cases hn : n < 2 ^ 63
  · rw [if_pos hn, show places = _ from (x.places_ofInt n).symm]
    exact ⟨⟨x.shiftLeft (.ofInt 32 n), (hresult .shl rfl).trans (if_pos hn), rfl, x.number_shiftLeft signed _⟩,
      x.shiftRight (.ofInt 32 n), (hresult .shr rfl).trans (if_pos hn), rfl, x.number_shiftRight _⟩
  · rw [if_neg hn]
    exact ⟨(hresult .shl rfl).trans (if_neg hn), (hresult .shr rfl).trans (if_neg hn)⟩

/-- The least amount that is refused. -/
theorem arith_shift_large :
    ¬ ∃ r, (Value.i32 1).arith .shl (.int (.ofNat .u64 (2 ^ 63))) .wrap = .ok r := by
  rintro ⟨r, hr⟩
  cases hr

end Value

/-! ## Conversions -/

namespace Word

theorem ofInt_number (signed : Bool) (w : Word) : ofInt w.kind (w.number signed) = w := by
  cases signed <;> simp [ofInt_eq, number]

theorem source_eq_number (w : Word) (mode : Overflow) :
    w.source mode = w.number (w.kind.signed && mode != .unsigned) := by
  have hsigned : (if mode = .unsigned then w.kind.toUnsigned else w.kind).signed =
      (w.kind.signed && mode != .unsigned) := by
    cases mode <;> cases w.kind <;> rfl
  rw [← hsigned, ← readAs_eq_number]
  cases mode <;> rfl

end Word

/-- The mode of a checked operation follows the signedness of its operand. -/
theorem Overflow.select_int {ty : Ty} {k : IntKind} (h : ty.nonNullable = .int k) :
    select true ty = if k.signed then .signed else .unsigned := by
  cases k <;> simp [select, h, Ty.isUnsigned, IntKind.signed]

namespace Value

theorem exact_convert (w : Word) {k : IntKind} {target : Ty} (ht : target.nonNullable = .int k) (mode : Overflow) :
    Exact mode.isChecked k.signed k (w.number (w.kind.signed && mode != .unsigned))
      ((Value.int w).convert target mode) := by
  have hconvert : (Value.int w).convert target mode = ofWord (w.convert k mode) := by simp [convert, ht, toKind]
  rw [hconvert, ← Word.source_eq_number]
  exact Word.exact_settle mode.isChecked k (w.source mode)

/-- A checked conversion keeps the number, if the target has it. -/
theorem exact_convert_checked (w : Word) {k : IntKind} {source target : Ty} (hs : source.nonNullable = .int w.kind)
    (ht : target.nonNullable = .int k) :
    Exact true k.signed k (w.number w.kind.signed) ((Value.int w).convert target (.select true source)) := by
  have h := exact_convert w ht (.select true source)
  rw [Overflow.select_int hs] at h ⊢
  cases hsigned : w.kind.signed <;> rw [hsigned] at h <;> exact h

/-- Conversions between integers are exact in each mode, and a checked one is undone by the checked one back. -/
theorem convert_exact (w : Word) (k : IntKind) (source target : Ty) (hs : source.nonNullable = .int w.kind)
    (ht : target.nonNullable = .int k) :
    (∀ mode, Exact mode.isChecked k.signed k (w.number (w.kind.signed && mode != .unsigned))
      ((Value.int w).convert target mode)) ∧
    ∀ r, (Value.int w).convert target (.select true source) = .ok r →
      r.convert source (.select true target) = .ok (.int w) := by
  refine ⟨exact_convert w ht, fun r hr => ?_⟩
  have hthere := exact_convert_checked w hs ht
  unfold Exact at hthere
  split at hthere
  · rw [hr] at hthere
    cases hthere
  · next hin =>
    obtain ⟨u, hu, rfl, -, hnumber⟩ := hthere
    cases hr.symm.trans hu
    have hback := exact_convert_checked u ht hs
    rw [hnumber (by simpa using hin), Exact, if_neg (fun h => h.2 (w.number_inRange _))] at hback
    obtain ⟨w', hw', hkind, -, hsame⟩ := hback
    rw [hw', ← Word.ofInt_number w.kind.signed w, ← hsame (w.number_inRange _), ← hkind, Word.ofInt_number]

/-- The largest 32-bit number, to a nullable 64-bit signed one and back. -/
theorem convert_exact_maxU32 :
    (∀ mode, Exact mode.isChecked true .i64 ((Word.ofInt .u32 4294967295).number (false && mode != .unsigned))
      ((Value.int (.ofInt .u32 4294967295)).convert (.nullable (.int .i64)) mode)) ∧
    (Value.i64 4294967295).convert (.int .u32) (.select true (.nullable (.int .i64))) =
      .ok (.int (.ofInt .u32 4294967295)) := by
  have h := convert_exact (.ofInt .u32 4294967295) .i64 (.int .u32) (.nullable (.int .i64)) rfl rfl
  exact ⟨h.1, h.2 _ rfl⟩

end Value

end ExprCompiler
