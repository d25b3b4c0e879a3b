/-
Places that denote the same storage. A place of the machine starts from a variable of the frame, one of the evaluator
from a variable of the activation; parts of the heap are the same on both sides. What is read at such places, written to
them or updated in them comes to the same, and the two sides go on to agree. A value without a home is a local of the
frame that no token has.
-/
import ExprCompiler.Proofs.Places.Cells

namespace ExprCompiler

namespace Sides

variable {S : Sides} {W W' : Set Nat} {n m : Nat} {s s' : Frame × World} {t t' : Activation × World}
    {v : Value} {α : Type}

/-- Two places denote the same storage. Values without a home are kept in the locals from `n` up to `m`. -/
inductive Denotes (S : Sides) (n m : Nat) (s : Frame × World) (t : Activation × World) :
    Place FrameVar → Place EvalVar → Prop
  | token {p : Param} {x : FrameVar} {y : EvalVar} (hp : p ∈ S.tokens) (hx : S.ctx.KeptIn p x) (hy : S.Finds t p y) :
    Denotes S n m s t (.root x) (.root y)
  | temp {i : Nat} {v : Value} (hn : n ≤ i) (hm : i < m) (hfree : S.Free (.localVar i)) (hv : s.1.locals[i]? = some v) :
    Denotes S n m s t (.root (.localVar i)) (.root (.temp v))
  | element (a : ArrayRef) (i : Nat) : Denotes S n m s t (.element a i) (.element a i)
  | objectField (o : ObjectRef) (i : Nat) : Denotes S n m s t (.objectField o i) (.objectField o i)
  | field {a : Place FrameVar} {b : Place EvalVar} (i : Nat) (h : Denotes S n m s t a b) :
    Denotes S n m s t (.field a i) (.field b i)

variable {a : Place FrameVar} {b : Place EvalVar}

/-- Places denote the same storage as long as the locals from `n` up to `m` are left alone. -/
theorem Denotes.later (h : S.Denotes n m s t a b) (hl : S.Later W s t s' t') (hW : ∀ i ∈ W, n ≤ i → m ≤ i) :
    S.Denotes n m s' t' a b := by
  induction h with
  | token hp hx hy => exact .token hp hx (hl.finds _ _ hy)
  | temp hn hm hfree hv =>
    refine .temp hn hm hfree (Eq.trans (hl.kept _ hfree ?_) hv)
    rintro j ⟨⟩ hj
    exact absurd (hW _ hj hn) (by omega)
  | element a i => exact .element a i
  | objectField o i => exact .objectField o i
  | field i _ ih => exact .field i ih

theorem Denotes.mono {n' m' : Nat} (h : S.Denotes n m s t a b) (hn : n' ≤ n) (hm : m ≤ m') :
    S.Denotes n' m' s t a b := by
  induction h with
  | token hp hx hy => exact .token hp hx hy
  | temp hi hj hfree hv => exact .temp (hn.trans hi) (hj.trans_le hm) hfree hv
  | element a i => exact .element a i
  | objectField o i => exact .objectField o i
  | field i _ ih => exact .field i ih

/-! ## Computations on both sides -/

/-- Two computations come to the same, and the sides agree after them. -/
structure Meets (S : Sides) (W : Set Nat) (s : Frame × World) (t : Activation × World)
    (x : Except Stop α × Frame × World) (y : Except Stop α × Activation × World) : Prop where
  result : x.1 = y.1
  later : S.Later W s t x.2 y.2
  stack : x.2.1.stack = s.1.stack

namespace Meets

variable {β : Type}

theorem of_pure (h : S.Agree s t) (r : Except Stop α) : S.Meets W s t (r, s) (r, t) := ⟨rfl, .refl h, rfl⟩

theorem trans {x : Except Stop α × Frame × World} {y : Except Stop α × Activation × World} (hl : S.Later W s t s' t')
    (hs : s'.1.stack = s.1.stack) (h : S.Meets W s' t' x y) : S.Meets W s t x y :=
  ⟨h.result, hl.trans h.later, h.stack.trans hs⟩

theorem bind {x : MachineM α} {y : EvalM α} {f : α → MachineM β} {g : α → EvalM β}
    (h : S.Meets W s t (x S.machine s) (y S.eval t)) (hW : W ⊆ W')
    (hfg : ∀ a s' t', x S.machine s = (.ok a, s') → y S.eval t = (.ok a, t') → S.Later W s t s' t' →
      S.Meets W' s' t' (f a S.machine s') (g a S.eval t')) :
    S.Meets W' s t ((x >>= f) S.machine s) ((y >>= g) S.eval t) := by
  obtain ⟨hresult, hlater, hstack⟩ := h
  rcases hx : x S.machine s with ⟨r, s'⟩
  rcases hy : y S.eval t with ⟨r', t'⟩
  rw [hx, hy] at hresult hlater
  rw [hx] at hstack
  obtain rfl : r = r' := hresult
  cases r with
  | error stop =>
    rw [Act.bind_error hx, Act.bind_error hy]
    exact ⟨rfl, hlater.mono hW, hstack⟩
  | ok a =>
    rw [Act.bind_ok hx, Act.bind_ok hy]
    exact trans (hlater.mono hW) hstack (hfg a s' t' hx hy hlater)

theorem observe {x : MachineM α} {y : EvalM α} (h : S.Meets W s t (x S.machine s) (y S.eval t)) :
    S.Meets W s t (Act.observe x S.machine s) (Act.observe y S.eval t) :=
  ⟨congrArg Except.ok h.result, h.later, h.stack⟩

theorem raise (h : S.Agree s t) (c : Cause) :
    S.Meets W s t ((Act.raise c : MachineM α) S.machine s) ((Act.raise c : EvalM α) S.eval t) := by
  rw [Act.raise_apply, Act.raise_apply, h.heap]
  exact ⟨rfl, h.heaps _, rfl⟩

theorem attempt (h : S.Agree s t) (r : Except Failure α) :
    S.Meets W s t ((Act.attempt r : MachineM α) S.machine s) ((Act.attempt r : EvalM α) S.eval t) := by
  rcases r with (c | d) | a
  · exact raise h c
  · exact of_pure h _
  · exact of_pure h _

theorem settle (h : S.Agree s t) (r : Except Cause α) :
    S.Meets W s t ((Act.settle r : MachineM α) S.machine s) ((Act.settle r : EvalM α) S.eval t) := by
  cases r with
  | ok a => exact of_pure h _
  | error c => exact raise h c

/-- Both sides look at the heap. -/
theorem heap {f : Heap → MachineM α} {g : Heap → EvalM α} (h : S.Agree s t)
    (hfg : S.Meets W s t (f t.2.heap S.machine s) (g t.2.heap S.eval t)) :
    S.Meets W s t ((Act.heap >>= f) S.machine s) ((Act.heap >>= g) S.eval t) := by
  rw [Act.bind_ok (Act.heap_apply _ _), Act.bind_ok (Act.heap_apply _ _), h.heap]
  exact hfg

/-- Both sides change the heap. -/
theorem allocate (h : S.Agree s t) (g : Heap → α × Heap) :
    S.Meets W s t ((Act.allocate g : MachineM α) S.machine s) ((Act.allocate g : EvalM α) S.eval t) := by
  rw [Act.allocate_apply, Act.allocate_apply, h.heap]
  exact ⟨rfl, h.heaps _, rfl⟩

end Meets

/-! ## Places -/

/-- What is read at two places is the same, and reading changes nothing. -/
theorem Denotes.read (hA : S.Agree s t) (h : S.Denotes n m s t a b) :
    S.Meets W s t (a.read MachineM.access S.machine s) (b.read EvalM.access S.eval t) := by
  induction h with
  | @token p x y hp hx hy =>
    obtain ⟨x', y', v, hx', hy', hs, ht⟩ := hA.vars p hp
    obtain rfl := hx.unique hx'
    obtain rfl := hy.unique hy'
    rw [Place.read, Place.read, read_stored hs, read_held ht]
    exact .of_pure hA _
  | @temp i v _ _ _ hv =>
    rw [Place.read, Place.read, read_stored (show S.stored? s (.localVar i) = some v from hv)]
    exact .of_pure hA _
  | element a i =>
    refine .heap hA ?_
    rcases (t.2.heap.items a)[i]? with _ | v
    · exact .raise hA _
    · exact .of_pure hA _
  | objectField o i => exact .heap hA (.attempt hA _)
  | field i _ ih => exact .bind ih subset_rfl fun v s' t' _ _ hl => .heap hl.agree (.attempt hl.agree _)

/-- What is written to two places is the same afterwards. -/
theorem Denotes.write (hA : S.Agree s t) (h : S.Denotes n m s t a b) (v : Value) :
    S.Meets (Set.Ico n m) s t (a.write MachineM.access v S.machine s) (b.write EvalM.access v S.eval t) := by
  have hnone : ∀ i ∈ (∅ : Set Nat), n ≤ i → m ≤ i := by simp
  induction a generalizing b s t v with
  | root x =>
    cases h with
    | @token p _ y hp hx hy =>
      obtain ⟨x', y', u, hx', hy', hs, ht⟩ := hA.vars p hp
      obtain rfl := hx.unique hx'
      obtain rfl := hy.unique hy'
      rw [Place.write, Place.write, write_stored (by rw [hs]; rfl), write_held]
      exact ⟨rfl, hA.write hp hx hy v, stack_store⟩
    | @temp i u hn hm hfree hu =>
      have hsome : (S.stored? s (.localVar i)).isSome := by
        rw [show S.stored? s (.localVar i) = some u from hu]
        rfl
      rw [Place.write, Place.write, write_stored hsome, write_held]
      exact ⟨rfl, hA.writeLocal hfree (Set.mem_Ico.2 ⟨hn, hm⟩) v, stack_store⟩
  | element a i | objectField o i =>
    cases h
    exact .allocate hA _
  | field a i ih =>
    cases h with
    | @field _ b _ h =>
      -- the holder is read again, its part is stored, and the holder is written back
      refine .bind (h.read hA) (Set.empty_subset _) fun holder s₁ t₁ _ _ h₁ => .heap h₁.agree ?_
      refine .bind (.attempt h₁.agree _) (Set.empty_subset _) fun r s₂ t₂ _ _ h₂ => ?_
      obtain ⟨holder', h'⟩ := r
      refine .bind (.allocate h₂.agree _) (Set.empty_subset _) fun _ s₃ t₃ _ _ h₃ => ?_
      exact ih h₃.agree (((h.later h₁ hnone).later h₂ hnone).later h₃ hnone) holder'

/-- An operation that comes to the same on both sides, applied in place. -/
theorem Denotes.update {F : Value → MachineM (Value × Except Stop α)} {G : Value → EvalM (Value × Except Stop α)}
    (hA : S.Agree s t) (h : S.Denotes n m s t a b)
    (hFG : ∀ v s' t', S.Later ∅ s t s' t' → S.Meets ∅ s' t' (F v S.machine s') (G v S.eval t')) :
    S.Meets (Set.Ico n m) s t (a.update MachineM.access F S.machine s) (b.update EvalM.access G S.eval t) := by
  have hnone : ∀ i ∈ (∅ : Set Nat), n ≤ i → m ≤ i := by simp
  refine .bind (h.read hA) (Set.empty_subset _) fun v s₁ t₁ _ _ h₁ => ?_
  refine .bind (hFG v s₁ t₁ h₁) (Set.empty_subset _) fun r s₂ t₂ _ _ h₂ => ?_
  obtain ⟨v', result⟩ := r
  have hwrite := ((h.later h₁ hnone).later h₂ hnone).write h₂.agree v'
  have hkeep : S.Meets (Set.Ico n m) s₂ t₂ (a.keep MachineM.access v' result S.machine s₂)
      (b.keep EvalM.access v' result S.eval t₂) := by
    rcases result with (_ | _ | _) | _
    · exact hwrite
    · exact .bind hwrite.observe subset_rfl fun _ _ _ _ _ hl => .of_pure hl.agree _
    · exact .bind hwrite.observe subset_rfl fun _ _ _ _ _ hl => .of_pure hl.agree _
    · exact hwrite
  refine .bind hkeep subset_rfl fun _ s₃ t₃ _ _ h₃ => ?_
  rw [Act.ofExcept_apply, Act.ofExcept_apply]
  exact .of_pure h₃.agree _

end Sides

/-! ## Writing back -/

namespace Heap

variable {h : Heap} {i : Nat} {v : Value}

end Heap

namespace MachineM

variable {fc : FrameContext} {s s' : Frame × World} {x : FrameVar} {a : Place FrameVar} {v : Value}

end MachineM

end ExprCompiler
