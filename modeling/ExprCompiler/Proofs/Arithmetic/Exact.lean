/-
Integer operations against exact arithmetic. A word stands for a number in a signed or an unsigned reading; an
operation has the exact result of the numbers, reduced to the width, or refuses a result outside of the reading.
-/
import ExprCompiler.Operation
import Mathlib.Data.Int.ModEq
import Mathlib.Tactic

namespace ExprCompiler

/-! ## Readings -/

/-- The number that the bits stand for: two's complement in a signed reading. -/
def Word.number (signed : Bool) (w : Word) : Int :=
  if signed then w.bits.toInt else w.bits.toNat

/-- The numbers of a reading at the width of a kind. -/
def IntKind.InRange (k : IntKind) (signed : Bool) (n : Int) : Prop :=
  if signed then -2 ^ (k.width - 1) ≤ n ∧ n < 2 ^ (k.width - 1) else 0 ≤ n ∧ n < 2 ^ k.width

instance (k : IntKind) (signed : Bool) (n : Int) : Decidable (k.InRange signed n) := by
  unfold IntKind.InRange
  infer_instance

/-- Whether operands of a kind are read as signed: the kind says it where no overflow is looked for. -/
def Overflow.readsSigned (mode : Overflow) (k : IntKind) : Bool :=
  match mode with
  | .wrap => k.signed
  | .signed => true
  | .unsigned => false

/-- The outcome of an operation on words of kind `k` with the exact result `n`. A checked operation refuses an `n`
that the reading does not have; otherwise the result agrees with `n` modulo the number of words, and is `n` where
the reading has it. -/
def Exact (checked signed : Bool) (k : IntKind) (n : Int) (r : Except Cause Value) : Prop :=
  if checked ∧ ¬ k.InRange signed n then r = .error .overflow
  else ∃ w : Word, r = .ok (.int w) ∧ w.kind = k ∧ w.number signed ≡ n [ZMOD 2 ^ k.width] ∧
    (k.InRange signed n → w.number signed = n)

/-- The kind that words of kind `k` are computed in: that of the same width whose signedness is the mode's. -/
def Overflow.reading (mode : Overflow) (k : IntKind) : IntKind :=
  match k, mode with
  | .i32, .unsigned => .u32
  | .i64, .unsigned => .u64
  | .u32, .signed => .i32
  | .u64, .signed => .i64
  | k, _ => k

theorem Overflow.signed_reading (mode : Overflow) (k : IntKind) : (mode.reading k).signed = mode.readsSigned k := by
  cases mode <;> cases k <;> rfl

theorem Overflow.width_reading (mode : Overflow) (k : IntKind) : (mode.reading k).width = k.width := by
  cases mode <;> cases k <;> rfl

theorem IntKind.holds_iff (k : IntKind) (n : Int) : k.Holds n ↔ k.InRange k.signed n := by
  cases k <;> simp [Holds, InRange, minInt, maxInt, signed, size, width] <;> omega

/-- Only the width of a kind bears on its range. -/
theorem IntKind.inRange_congr {k k' : IntKind} (h : k'.width = k.width) (signed : Bool) (n : Int) :
    k'.InRange signed n ↔ k.InRange signed n := by
  rw [InRange, InRange, h]

theorem Word.readAs_eq_number (k : IntKind) (w : Word) : w.readAs k = w.number k.signed :=
  w.readAs_eq k

theorem Word.number_inRange (signed : Bool) (w : Word) : w.kind.InRange signed (w.number signed) := by
  obtain ⟨k, bits⟩ := w
  unfold IntKind.InRange Word.number
  cases signed
  · have hlt := bits.isLt
    refine ⟨by simp, ?_⟩
    simp only [Bool.false_eq_true, if_false]
    exact_mod_cast hlt
  · have hle := BitVec.le_toInt bits
    have hlt := BitVec.toInt_lt (x := bits)
    simp only [if_true]
    exact ⟨hle, hlt⟩

/-! ## Reduction to a word -/

@[simp] theorem Word.kind_ofInt (k : IntKind) (n : Int) : (ofInt k n).kind = k := by
  rw [ofInt_eq]

theorem Word.number_ofInt_modEq (signed : Bool) (k : IntKind) (n : Int) :
    (ofInt k n).number signed ≡ n [ZMOD 2 ^ k.width] := by
  rw [ofInt_eq, number]
  cases signed
  · simp only [Bool.false_eq_true, if_false, BitVec.toNat_ofInt]
    rw [Int.toNat_of_nonneg (Int.emod_nonneg _ (by positivity))]
    push_cast
    exact Int.mod_modEq n _
  · simp only [if_true, BitVec.toInt_ofInt]
    have h := Int.bmod_emod (x := n) (m := 2 ^ k.width)
    push_cast at h
    exact h

/-- Two numbers of a reading that agree modulo the number of words are equal. -/
theorem IntKind.InRange.eq_of_modEq {k : IntKind} {signed : Bool} {m n : Int} (hm : k.InRange signed m)
    (hn : k.InRange signed n) (h : m ≡ n [ZMOD 2 ^ k.width]) : m = n := by
  unfold InRange at hm hn
  unfold Int.ModEq at h
  cases signed <;> cases k <;> simp [width] at hm hn h <;> omega

theorem Word.number_ofInt {signed : Bool} {k : IntKind} {n : Int} (h : k.InRange signed n) :
    (ofInt k n).number signed = n := by
  have hin := number_inRange signed (ofInt k n)
  rw [kind_ofInt] at hin
  exact hin.eq_of_modEq h (number_ofInt_modEq signed k n)

theorem Word.exact_settle (checked : Bool) (k : IntKind) (n : Int) :
    Exact checked k.signed k n (Value.ofWord (settle checked k n)) := by
  have hrange := k.holds_iff n
  unfold Exact settle
  by_cases hbad : checked ∧ ¬ k.InRange k.signed n
  · rw [if_pos hbad, if_pos (by simpa [hrange] using hbad)]
    rfl
  · rw [if_neg hbad, if_neg (by simpa [hrange] using hbad)]
    exact ⟨ofInt k n, rfl, kind_ofInt k n, number_ofInt_modEq _ k n, number_ofInt⟩

/-! ## Words of the same bits -/

namespace Word

variable {k : IntKind}

theorem kind_recast (k : IntKind) (w : Word) : (recast k w).kind = k := by
  rw [recast, ofNat_eq]

/-- At one width the bits stay as they are. -/
theorem recast_eq {k' : IntKind} (h : k'.width = k.width) (bits : BitVec k'.width) :
    recast k ⟨k', bits⟩ = ⟨k, bits.cast h⟩ := by
  rw [recast, ofNat_eq]
  congr 1
  apply BitVec.eq_of_toNat_eq
  rw [BitVec.toNat_ofNat, BitVec.toNat_cast, ← h]
  exact Nat.mod_eq_of_lt bits.isLt

theorem recast_kind (w : Word) : recast w.kind w = w :=
  recast_eq rfl w.bits

theorem toNat_recast {w : Word} (h : w.kind.width = k.width) : (recast k w).bits.toNat = w.bits.toNat := by
  rw [recast_eq h w.bits, BitVec.toNat_cast]

theorem number_recast {w : Word} (h : w.kind.width = k.width) (signed : Bool) :
    (recast k w).number signed = w.number signed := by
  unfold number
  rw [BitVec.toInt_eq_toNat_cond, BitVec.toInt_eq_toNat_cond, toNat_recast h, kind_recast, ← h]

theorem value_recast {w : Word} (h : w.kind.width = k.width) : (recast k w).value = w.number k.signed := by
  rw [value, readAs_eq_number, kind_recast, number_recast h]

theorem recast_ofNat {k' : IntKind} (h : k'.width = k.width) (n : Nat) : recast k (ofNat k' n) = ofNat k n := by
  rw [ofNat_eq, ofNat_eq, recast_eq h]
  congr 1
  apply BitVec.eq_of_toNat_eq
  rw [BitVec.toNat_cast, BitVec.toNat_ofNat, BitVec.toNat_ofNat, h]

theorem recast_ofInt {k' : IntKind} (h : k'.width = k.width) (n : Int) : recast k (ofInt k' n) = ofInt k n := by
  rw [ofInt_eq, ofInt_eq, recast_eq h]
  congr 1
  apply BitVec.eq_of_toNat_eq
  rw [BitVec.toNat_cast, BitVec.toNat_ofInt, BitVec.toNat_ofInt, h]

/-- A binary operator stays within a kind of words. -/
theorem kind_compute {op : ArithOp} {a b c : Word} {checked : Bool} (h : a.compute op b checked = .ok c) :
    c.kind = a.kind := by
  unfold compute at h
  cases op with
  | add | sub | mul =>
    dsimp only [settle] at h
    split at h <;> cases h
    exact kind_ofInt _ _
  | div | rem =>
    dsimp only [divRem] at h
    split at h
    · cases h
    · split at h <;> cases h
      exact kind_ofInt _ _
  | and | or | xor | shl | shr =>
    cases h
    rfl

theorem kind_arith {op : ArithOp} {a b c : Word} {mode : Overflow} (h : a.arith op b mode = .ok c) :
    c.kind = a.kind := by
  have hrecast : ∀ {k} {r : Except ArithError Word}, r.map (recast k) = .ok c → c.kind = k := by
    intro k r hr
    cases r with
    | ok d =>
      cases hr
      exact kind_recast k d
    | error => cases hr
  unfold arith at h
  split at h
  · next hk => rw [hk, hrecast h]
  · next hk => rw [hk, hrecast h]
  · next hk => rw [hk, hrecast h]
  · next hk => rw [hk, hrecast h]
  · exact kind_compute h

/-- All the rows of an operator at once: it is computed in the kind of the reading. -/
theorem arith_eq (op : ArithOp) {a b : Word} (hb : b.kind = a.kind) (mode : Overflow) :
    a.arith op b mode =
      ((a.recast (mode.reading a.kind)).compute op (b.recast (mode.reading a.kind)) mode.isChecked).map
        (recast a.kind) := by
  have hown : a.compute op b mode.isChecked =
      ((a.recast a.kind).compute op (b.recast a.kind) mode.isChecked).map (recast a.kind) := by
    rw [recast_kind, ← hb, recast_kind, hb]
    cases hr : a.compute op b mode.isChecked with
    | error e => rfl
    | ok c => exact congrArg Except.ok (kind_compute hr ▸ recast_kind c).symm
  obtain ⟨k, a⟩ := a
  cases k <;> cases mode <;> first | exact hown | rfl

theorem exact_recast {checked signed : Bool} {k' : IntKind} (hw : k'.width = k.width) {n : Int}
    {r : Except ArithError Word} (h : Exact checked signed k' n (Value.ofWord r)) :
    Exact checked signed k n (Value.ofWord (r.map (recast k))) := by
  unfold Exact at h ⊢
  simp only [IntKind.inRange_congr hw, hw] at h
  split at h
  · next hbad =>
    rw [if_pos hbad]
    cases r with
    | ok c => cases h
    | error e => exact h
  · next hgood =>
    rw [if_neg hgood]
    obtain ⟨w, hr, hkind, hmod, hin⟩ := h
    cases r with
    | error e => cases e <;> cases hr
    | ok c =>
      cases hr
      refine ⟨recast k w, rfl, kind_recast k w, ?_⟩
      rw [number_recast (hkind ▸ hw)]
      exact ⟨hmod, hin⟩

end Word

/-! ## Division -/

namespace IntKind.InRange

variable {k : IntKind} {signed : Bool} {x y : Int}

/-- Quotients toward zero stay in the range, but for the least signed number divided by -1. -/
theorem tdiv_iff (hx : k.InRange signed x) (hy : k.InRange signed y) (h0 : y ≠ 0) :
    k.InRange signed (x.tdiv y) ↔ ¬ (signed ∧ x = -2 ^ (k.width - 1) ∧ y = -1) := by
  rcases (show y = 1 ∨ y = -1 ∨ 2 ≤ y.natAbs by omega) with rfl | rfl | hfar
  · rw [Int.tdiv_one]
    exact iff_of_true hx (by simp)
  · rw [Int.tdiv_neg, Int.tdiv_one]
    unfold InRange at *
    cases signed <;> cases k <;> simp [width] at hx hy ⊢ <;> omega
  · -- the quotient is at most half as far from zero, and not negative where the numbers are not
    have hhalf : (x.tdiv y).natAbs ≤ x.natAbs / 2 := by
      rw [Int.natAbs_tdiv]
      exact Nat.div_le_div_left hfar (by decide)
    have hnonneg : 0 ≤ x → 0 ≤ y → 0 ≤ x.tdiv y := Int.tdiv_nonneg
    refine iff_of_true ?_ fun h => by omega
    unfold InRange at *
    cases signed <;> cases k <;> simp [width] at hx hy ⊢ <;> omega

/-- A remainder lies between zero and the dividend. -/
theorem tmod (hx : k.InRange signed x) (y : Int) : k.InRange signed (x.tmod y) := by
  have habs : (x.tmod y).natAbs ≤ x.natAbs := by
    rw [Int.natAbs_tmod]
    exact Nat.mod_le _ _
  have hsign : (0 ≤ x → 0 ≤ x.tmod y) ∧ (x ≤ 0 → x.tmod y ≤ 0) := by
    refine ⟨fun h => Int.tmod_nonneg y h, fun h => ?_⟩
    have := Int.tmod_nonneg y (Int.neg_nonneg_of_nonpos h)
    rw [Int.neg_tmod] at this
    omega
  unfold InRange at *
  cases signed <;> cases k <;> simp [width] at hx ⊢
  all_goals omega

end IntKind.InRange

/-- A quotient or a remainder: none by zero, none where the quotient leaves the range, else the exact one. -/
theorem Word.divRem_eq {k : IntKind} {x y : Int} (hx : k.InRange k.signed x) (hy : k.InRange k.signed y)
    (pick : Int → Int → Int) :
    divRem k x y pick =
      if y = 0 then .error .divideByZero
      else if k.signed ∧ x = -2 ^ (k.width - 1) ∧ y = -1 then .error .overflow
      else .ok (ofInt k (pick x y)) := by
  unfold divRem
  by_cases h0 : y = 0
  · rw [if_pos h0, if_pos h0]
  · rw [if_neg h0, if_neg h0]
    have hq : k.Holds (x.tdiv y) ↔ ¬ (k.signed ∧ x = -2 ^ (k.width - 1) ∧ y = -1) :=
      (k.holds_iff _).trans (hx.tdiv_iff hy h0)
    by_cases hmin : k.signed ∧ x = -2 ^ (k.width - 1) ∧ y = -1
    · rw [if_neg (by simpa [hq] using hmin), if_pos hmin]
    · rw [if_pos (hq.2 hmin), if_neg hmin]

/-! ## Operators -/

namespace Value

variable (k : IntKind) (a b : BitVec k.width) (mode : Overflow) {op : ArithOp}

theorem arith_word (hop : op.isShift = false) :
    (Value.int ⟨k, a⟩).arith op (.int ⟨k, b⟩) mode =
      ofWord ((Word.compute op (.recast (mode.reading k) ⟨k, a⟩) (.recast (mode.reading k) ⟨k, b⟩)
        mode.isChecked).map (Word.recast k)) := by
  rw [← Word.arith_eq op (a := ⟨k, a⟩) (b := ⟨k, b⟩) rfl]
  simp [arith, hop]

theorem value_reading :
    (Word.recast (mode.reading k) ⟨k, a⟩).value = Word.number (mode.readsSigned k) ⟨k, a⟩ := by
  rw [Word.value_recast (mode.width_reading k).symm, Overflow.signed_reading]

theorem exact_arith {f : Int → Int → Int}
    (h : (op, f) ∈ [(.add, (· + ·)), (.sub, (· - ·)), (ArithOp.mul, (· * · : Int → Int → Int))]) :
    Exact mode.isChecked (mode.readsSigned k) k
      (f (Word.number (mode.readsSigned k) ⟨k, a⟩) (Word.number (mode.readsSigned k) ⟨k, b⟩))
      ((Value.int ⟨k, a⟩).arith op (.int ⟨k, b⟩) mode) := by
  have hsettle := fun n =>
    Word.exact_recast (mode.width_reading k) (Word.exact_settle mode.isChecked (mode.reading k) n)
  simp only [Overflow.signed_reading] at hsettle
  simp only [List.mem_cons, Prod.mk.injEq, List.not_mem_nil, or_false] at h
  obtain ⟨rfl, rfl⟩ | ⟨rfl, rfl⟩ | ⟨rfl, rfl⟩ := h
  all_goals
    rw [arith_word k a b mode rfl, ← value_reading, ← value_reading]
    exact hsettle _

theorem arith_divRem {f : Int → Int → Int} (h : (op, f) ∈ [(.div, Int.tdiv), (ArithOp.rem, Int.tmod)]) :
    let signed := mode.readsSigned k
    let x := Word.number signed ⟨k, a⟩
    let y := Word.number signed ⟨k, b⟩
    (Value.int ⟨k, a⟩).arith op (.int ⟨k, b⟩) mode =
      if y = 0 then .error .divideByZero
      else if signed ∧ x = -2 ^ (k.width - 1) ∧ y = -1 then .error .overflow
      else .ok (.int (.ofInt k (f x y))) := by
  intro signed x y
  have hw := mode.width_reading k
  have hin : ∀ bits : BitVec k.width, (mode.reading k).InRange (mode.reading k).signed
      (Word.number signed ⟨k, bits⟩) := fun bits => by
    rw [mode.signed_reading, IntKind.inRange_congr hw]
    exact Word.number_inRange signed ⟨k, bits⟩
  have hdiv := Word.divRem_eq (hin a) (hin b) f
  rw [Overflow.signed_reading, hw] at hdiv
  have hword : (Value.int ⟨k, a⟩).arith op (.int ⟨k, b⟩) mode =
      ofWord ((Word.divRem (mode.reading k) x y f).map (Word.recast k)) := by
    simp only [List.mem_cons, Prod.mk.injEq, List.not_mem_nil, or_false] at h
    obtain ⟨rfl, rfl⟩ | ⟨rfl, rfl⟩ := h
    all_goals
      rw [arith_word k a b mode rfl, show x = _ from (value_reading k a mode).symm,
        show y = _ from (value_reading k b mode).symm]
      rfl
  rw [hword, hdiv]
  split
  · rfl
  · split
    · rfl
    · exact congrArg (Except.ok ∘ Value.int) (Word.recast_ofInt hw _)

/-- A quotient and its remainder make up the dividend. -/
theorem div_mul_add_rem {q r : Word} (hq : (Value.int ⟨k, a⟩).arith .div (.int ⟨k, b⟩) mode = .ok (.int q))
    (hr : (Value.int ⟨k, a⟩).arith .rem (.int ⟨k, b⟩) mode = .ok (.int r)) :
    let signed := mode.readsSigned k
    let x := Word.number signed ⟨k, a⟩
    let y := Word.number signed ⟨k, b⟩
    q.number signed = x.tdiv y ∧ q.number signed * y + r.number signed = x := by
  intro signed x y
  have hx : k.InRange signed x := Word.number_inRange signed ⟨k, a⟩
  have hy : k.InRange signed y := Word.number_inRange signed ⟨k, b⟩
  rw [arith_divRem k a b mode (f := Int.tdiv) (by simp)] at hq
  rw [arith_divRem k a b mode (f := Int.tmod) (by simp)] at hr
  split at hq
  · cases hq
  · next h0 =>
    split at hq
    · cases hq
    · next hout =>
      rw [if_neg h0, if_neg hout] at hr
      cases hq
      cases hr
      have hquotient := Word.number_ofInt ((hx.tdiv_iff hy h0).2 hout)
      refine ⟨hquotient, ?_⟩
      calc _ = x.tdiv y * y + x.tmod y := by rw [hquotient, Word.number_ofInt (hx.tmod y)]
        _ = x := Int.tdiv_mul_add_tmod x y

theorem bitwise_bits {f : Nat → Nat → Nat} {g : Bool → Bool → Bool}
    (hf : ∀ m n i, (f m n).testBit i = g (m.testBit i) (n.testBit i)) (hg : g false false = false) (i : Nat) :
    (Word.bitwise f ⟨k, a⟩ ⟨k, b⟩).bits.getLsbD i = g (a.getLsbD i) (b.getLsbD i) := by
  rw [Word.bitwise, Word.ofNat_eq]
  simp only [BitVec.getLsbD_ofNat, hf]
  by_cases hi : i < k.width
  · simp [hi, BitVec.getLsbD]
  · have ha : a.getLsbD i = false := BitVec.getLsbD_of_ge _ _ (by omega)
    have hb : b.getLsbD i = false := BitVec.getLsbD_of_ge _ _ (by omega)
    simp [hi, ha, hb, hg]

theorem arith_bitwise {g : Bool → Bool → Bool} (h : (op, g) ∈ [(.and, and), (.or, or), (ArithOp.xor, xor)]) :
    ∃ w : Word, (Value.int ⟨k, a⟩).arith op (.int ⟨k, b⟩) mode = .ok (.int w) ∧ w.kind = k ∧
      ∀ i, w.bits.getLsbD i = g (a.getLsbD i) (b.getLsbD i) := by
  have hw := mode.width_reading k
  have hbits : ∀ f, Word.recast k (Word.bitwise f (.recast (mode.reading k) ⟨k, a⟩) (.recast (mode.reading k) ⟨k, b⟩)) =
      Word.bitwise f ⟨k, a⟩ ⟨k, b⟩ := fun f => by
    rw [Word.bitwise, Word.recast_ofNat ((Word.kind_recast _ _).symm ▸ hw), Word.toNat_recast hw.symm,
      Word.toNat_recast hw.symm]
    rfl
  have hword : ∀ f, Word.compute op (.recast (mode.reading k) ⟨k, a⟩) (.recast (mode.reading k) ⟨k, b⟩)
      mode.isChecked = .ok (Word.bitwise f (.recast (mode.reading k) ⟨k, a⟩) (.recast (mode.reading k) ⟨k, b⟩)) →
      op.isShift = false → (Value.int ⟨k, a⟩).arith op (.int ⟨k, b⟩) mode = .ok (.int (Word.bitwise f ⟨k, a⟩ ⟨k, b⟩)) :=
    fun f hf hop => by
      rw [arith_word k a b mode hop, hf, ← hbits f]
      rfl
  simp only [List.mem_cons, Prod.mk.injEq, List.not_mem_nil, or_false] at h
  obtain ⟨rfl, rfl⟩ | ⟨rfl, rfl⟩ | ⟨rfl, rfl⟩ := h
  · exact ⟨_, hword _ rfl rfl, rfl, bitwise_bits k a b Nat.testBit_and rfl⟩
  · exact ⟨_, hword _ rfl rfl, rfl, bitwise_bits k a b Nat.testBit_or rfl⟩
  · exact ⟨_, hword _ rfl rfl, rfl, bitwise_bits k a b Nat.testBit_xor rfl⟩

/-- Integer operators are exact arithmetic with the overflow rule of the mode. -/
theorem arith_exact :
    let signed := mode.readsSigned k
    let x := Word.number signed ⟨k, a⟩
    let y := Word.number signed ⟨k, b⟩
    let result (op : ArithOp) := (Value.int ⟨k, a⟩).arith op (.int ⟨k, b⟩) mode
    let outside := signed ∧ x = -2 ^ (k.width - 1) ∧ y = -1
    -- sums, differences and products
    (Exact mode.isChecked signed k (x + y) (result .add) ∧ Exact mode.isChecked signed k (x - y) (result .sub) ∧
      Exact mode.isChecked signed k (x * y) (result .mul)) ∧
    -- quotients and remainders, alike in all modes
    ((∀ op ∈ [ArithOp.div, .rem], (result op = .error .divideByZero ↔ y = 0) ∧
        (result op = .error .overflow ↔ outside) ∧
        (y ≠ 0 → ¬ outside → ∃ w : Word, result op = .ok (.int w) ∧ w.kind = k)) ∧
      ∀ q r, result .div = .ok (.int q) → result .rem = .ok (.int r) →
        q.number signed = x.tdiv y ∧ q.number signed * y + r.number signed = x) ∧
    -- bitwise operators
    (∀ op g, (op, g) ∈ [(.and, and), (.or, or), (ArithOp.xor, xor)] →
      ∃ w : Word, result op = .ok (.int w) ∧ w.kind = k ∧ ∀ i, w.bits.getLsbD i = g (a.getLsbD i) (b.getLsbD i)) ∧
    -- negation, in the kind's own reading
    Exact mode.isChecked k.signed k (0 - Word.number k.signed ⟨k, a⟩) ((Value.int ⟨k, a⟩).negate mode) := by
  intro signed x y result outside
  refine ⟨⟨exact_arith k a b mode (f := (· + ·)) (by simp), exact_arith k a b mode (f := (· - ·)) (by simp),
    exact_arith k a b mode (f := (· * ·)) (by simp)⟩, ⟨fun op hop => ?_, fun q r => div_mul_add_rem k a b mode⟩,
    fun op g => arith_bitwise k a b mode, ?_⟩
  · obtain ⟨f, hf⟩ : ∃ f, (op, f) ∈ [(.div, Int.tdiv), (ArithOp.rem, Int.tmod)] := by
      simp only [List.mem_cons, List.not_mem_nil, or_false] at hop
      obtain rfl | rfl := hop
      · exact ⟨Int.tdiv, by simp⟩
      · exact ⟨Int.tmod, by simp⟩
    rw [show result op = if y = 0 then _ else if outside then _ else _ from arith_divRem k a b mode hf]
    by_cases h0 : y = 0
    · simp [h0, outside]
    · by_cases hout : outside
      · simp [h0, hout]
      · simp [h0, hout]
  · have hzero : (Word.ofInt k 0).value = 0 := by cases k <;> rfl
    have hsub : (Value.int ⟨k, a⟩).negate mode = ofWord (Word.settle mode.isChecked k (0 - Word.value ⟨k, a⟩)) := by
      rw [← hzero]
      rfl
    rw [hsub, ← Word.readAs_eq_number k ⟨k, a⟩]
    exact Word.exact_settle mode.isChecked k _

end Value

end ExprCompiler
