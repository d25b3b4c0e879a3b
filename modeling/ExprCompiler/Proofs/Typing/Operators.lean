/-
Types of the results of arithmetic. A built-in operator gives a value of the type of its node, but for one case: a null
on the right makes the result null, also where the left operand, whose type the node has, is not nullable.
-/
import ExprCompiler.Proofs.Arithmetic.Exact
import ExprCompiler.Proofs.Places.Code
import ExprCompiler.Proofs.Simulation.Instructions
import ExprCompiler.Tree.Build

namespace ExprCompiler

/-! ## Values and types -/

namespace Value

theorem hasType_null (ty : Ty) : Value.null.hasType ty = ty.admitsNull := by
  cases ty <;> simp [hasType, isNull, Ty.admitsNull, Ty.isNullable]

theorem hasType_object (v : Value) : v.hasType .object = true := by
  cases v <;> rfl

theorem isNull_eq_false {v : Value} (hv : v ≠ .null) : v.isNull = false := by
  cases v <;> first | rfl | exact absurd rfl hv

theorem hasType_nonNullable {v : Value} (hv : v ≠ .null) (ty : Ty) : v.hasType ty.nonNullable = v.hasType ty := by
  cases ty with
  | nullable inner => rw [hasType, isNull_eq_false hv, Bool.false_or, Ty.nonNullable]
  | _ => rfl

theorem hasType_of_nonNullable {v : Value} {ty : Ty} (h : v.hasType ty.nonNullable = true) : v.hasType ty = true := by
  cases ty with
  | nullable inner => exact Bool.or_eq_true_iff.2 (.inr h)
  | _ => exact h

/-- Primitive values of one type. -/
inductive Akin : Value → Value → Prop
  | bool (x y : Bool) : Akin (.bool x) (.bool y)
  | int {x y : Word} (h : x.kind = y.kind) : Akin (.int x) (.int y)
  | f64 (x y : Float) : Akin (.f64 x) (.f64 y)

theorem Akin.hasType_eq {v u : Value} (h : Akin v u) : ∀ ty : Ty, v.hasType ty = u.hasType ty
  | .nullable ty => by
    have hnull : v.isNull = u.isNull := by cases h <;> rfl
    rw [hasType, hasType, hnull, h.hasType_eq ty]
  | .int _ => by cases h <;> simp [hasType, *]
  | .void | .bool | .f64 | .str | .object | .token | .cls _ | .array _ | .func _ _ => by cases h <;> rfl

end Value

theorem Ty.admitsNull_of_isPrimitive {ty : Ty} (h : ty.nonNullable.isPrimitive = true) :
    ty.admitsNull = ty.isNullable := by
  cases ty <;> simp_all [nonNullable, isPrimitive, admitsNull, isNullable, isReference, isVoid, isValueType]

/-! ## Operators -/

/-- Arithmetic gives null if an operand is null, and else a value akin to the left operand. -/
theorem Value.arith_cases {op : ArithOp} {a b r : Value} {mode : Overflow} (h : a.arith op b mode = .ok r) :
    (r = .null ∧ (a = .null ∨ b = .null)) ∨ a ≠ .null ∧ b ≠ .null ∧ Akin r a := by
  unfold arith at h
  split at h
  · unfold shift at h
    split at h
    · cases h
      exact .inl ⟨rfl, .inr rfl⟩
    · next hb =>
      split at h
      · cases h
      · split at h <;> cases h
        · exact .inl ⟨rfl, .inl rfl⟩
        · refine .inr ⟨nofun, hb, .int ?_⟩
          split <;> rfl
  · split at h
    · cases h
      exact .inl ⟨rfl, .inl rfl⟩
    · cases h
      exact .inl ⟨rfl, .inr rfl⟩
    · next x y =>
      split at h
      · rcases hw : x.arith op y mode with e | z <;> rw [hw] at h <;> cases h
        exact .inr ⟨nofun, nofun, .int (Word.kind_arith hw)⟩
      · cases h
    · cases op <;> cases h <;> exact .inr ⟨nofun, nofun, .f64 _ _⟩
    · cases op <;> cases h <;> exact .inr ⟨nofun, nofun, .bool _ _⟩
    · cases h

/-! ## Arithmetic nodes -/

theorem MachineM.Performs.result {fc : FrameContext} {i : Instr} {vs : List Value} {x : World → Except Cause Value}
    (h : Performs fc i vs (fun w => w.settled (x w)) fun v => [v]) {f f' : Frame} {w w' : World} {base : List Value}
    (hst : f.stack = vs ++ base) (hrun : effect i fc (f, w) = (.ok (), f', w')) :
    ∃ r, x w = .ok r ∧ f'.stack = r :: base := by
  rw [h f w base hst] at hrun
  dsimp only at hrun
  rcases hx : x w with c | r <;> rw [hx] at hrun <;> cases hrun
  exact ⟨r, rfl, rfl⟩

namespace ArithForm

/-- What a built-in form gives for its operands. -/
def Gives (op : ArithOp) (h : Heap) (a b r : Value) : ArithForm → Prop
  | .method _ => False
  | .concat => a.concat h b = r
  | .builtin mode => a.arith op b mode = .ok r

variable {table : Overloads} {op : ArithOp} {left right : Ty} {checked : Bool} {form : ArithForm} {a b r : Value}

theorem choose?_cases (h : choose? table op left right checked none = some form) :
    (form = .concat ∧ op = .add ∧ (left = .str ∨ right = .str)) ∨
    (∃ mode, form = .builtin mode ∧ ¬ (op = .add ∧ (left = .str ∨ right = .str)) ∧
      left.nonNullable.isPrimitive = true) ∨
    ∃ m, form = .method m := by
  simp only [choose?] at h
  split at h
  · next hconcat =>
    cases h
    exact .inl ⟨rfl, hconcat⟩
  · next hconcat =>
    split at h
    · next hshift =>
      cases h
      have hprimitive : ∀ ty : Ty, ty.isInteger = true → ty.isPrimitive = true := fun ty => by
        cases ty <;> simp [Ty.isInteger, Ty.isPrimitive]
      exact .inr (.inl ⟨_, rfl, hconcat, hprimitive _ hshift.2.1⟩)
    · split at h
      · next hsame =>
        cases h
        exact .inr (.inl ⟨_, rfl, hconcat, hsame.1⟩)
      · obtain ⟨m, -, rfl⟩ := Option.map_eq_some_iff.1 h
        exact .inr (.inr ⟨m, rfl⟩)

/-- Overloads are asked last: a built-in form is the same with all of them. -/
theorem choose?_of_builtin (h : choose? table op left right checked none = some form) (hbuiltin : ∀ m, form ≠ .method m)
    (table' : Overloads) : choose? table' op left right checked none = some form := by
  rw [← h]
  simp only [choose?] at h ⊢
  split
  · rfl
  · next hconcat =>
    rw [if_neg hconcat] at h
    split
    · rfl
    · next hshift =>
      rw [if_neg hshift] at h
      split
      · rfl
      · next hsame =>
        rw [if_neg hsame] at h
        obtain ⟨m, -, rfl⟩ := Option.map_eq_some_iff.1 h
        exact absurd rfl (hbuiltin m)

theorem Gives.hasType_iff {h : Heap} (hgives : form.Gives op h a b r)
    (hform : choose? table op left right checked none = some form) (ha : a.hasType left = true) :
    r.hasType (if op == .add && (left == .str || right == .str) then .str else left) = true ↔
      (b = .null → form = .concat ∨ left.isNullable = true) := by
  obtain ⟨rfl, hconcat⟩ | ⟨mode, rfl, hconcat, hprimitive⟩ | ⟨m, rfl⟩ := choose?_cases hform
  · rw [if_pos (by simpa using hconcat), ← show a.concat h b = r from hgives]
    exact iff_of_true rfl fun _ => .inl rfl
  · rw [if_neg (by simpa using hconcat)]
    have hnull := Ty.admitsNull_of_isPrimitive hprimitive
    obtain ⟨rfl, rfl | rfl⟩ | ⟨-, hb, hakin⟩ := Value.arith_cases hgives
    · exact iff_of_true ha fun _ => .inr (by rw [← hnull, ← Value.hasType_null, ha])
    · rw [Value.hasType_null, hnull]
      simp
    · rw [hakin.hasType_eq]
      exact iff_of_true ha fun h => absurd h hb
  · exact hgives.elim

theorem gives_of_effect (hbuiltin : ∀ m, form ≠ .method m) {fc : FrameContext} {f f' : Frame} {w w' : World}
    {base : List Value} (hst : f.stack = b :: a :: base)
    (hrun : MachineM.effect (Emit.arithInstr op form) fc (f, w) = (.ok (), f', w')) :
    ∃ r, f'.stack = r :: base ∧ form.Gives op w.heap a b r := by
  cases form with
  | method m => exact absurd rfl (hbuiltin m)
  | concat =>
    obtain ⟨r, hr, htop⟩ :=
      (MachineM.performs_heap_binary (g := fun h a b => .ok (a.concat h b)) rfl a b).result hst hrun
    exact ⟨r, htop, Except.ok.inj hr⟩
  | builtin mode =>
    obtain ⟨r, hr, htop⟩ := (MachineM.performs_binary (g := fun a b => a.arith op b mode) rfl a b).result hst hrun
    exact ⟨r, htop, hr⟩

theorem gives_of_meaning {id : NodeId} {left right : Tree} (hbuiltin : ∀ m, form ≠ .method m) {ctx : EvalContext}
    {s t u v : Activation × World} (hform : choose? table op left.ty right.ty checked none = some form)
    (hl : left.meaning.value ctx s = (.ok a, t)) (hr : right.meaning.value ctx t = (.ok b, u))
    (hrun : (Tree.arith id op left right checked).meaning.value ctx s = (.ok r, v)) :
    form.Gives op u.2.heap a b r := by
  rw [Tree.arith, Tree.meaning_node] at hrun
  have hrun : Eval.arith op (.of Tree.meaning left) (.of Tree.meaning right) checked none ctx s = (.ok r, v) := hrun
  have hl : Evaluated.value (.of Tree.meaning left) ctx s = (.ok a, t) := hl
  have hr : Evaluated.value (.of Tree.meaning right) ctx t = (.ok b, u) := hr
  unfold Eval.arith Eval.arithAs at hrun
  rw [Act.bind_ok hl, Act.bind_ok hr, Act.bind_ok (EvalM.overloads_apply ctx u)] at hrun
  simp only [Tree.Child.ty_of, choose?_of_builtin hform hbuiltin] at hrun
  cases form with
  | method m => exact absurd rfl (hbuiltin m)
  | concat =>
    dsimp only at hrun
    rw [Act.bind_ok (Act.heap_apply ctx u), Act.pure_apply] at hrun
    cases hrun
    rfl
  | builtin mode =>
    dsimp only at hrun
    rw [Act.settle_apply] at hrun
    rcases hx : a.arith op b mode with c | x <;> rw [hx] at hrun <;> cases hrun
    exact hx

end ArithForm

/-- Built-in arithmetic gives a value of the type of the node, evaluated or compiled, but for one case: a null on the
right makes the result null, whatever the type of the left operand. -/
theorem Tree.arith_hasType_iff {table : Overloads} {op : ArithOp} {left right : Tree} {checked : Bool}
    {form : ArithForm} (hform : ArithForm.choose? table op left.ty right.ty checked none = some form)
    (hbuiltin : ∀ m, form ≠ .method m) {a b : Value} (ha : a.hasType left.ty = true) (id : NodeId) :
    let node := Tree.arith id op left right checked
    let typed (r : Value) :=
      r.hasType node.ty = true ↔ (b = .null → form = .concat ∨ left.ty.isNullable = true)
    (∀ ctx s t u v r, left.meaning.value ctx s = (.ok a, t) →
      right.meaning.value ctx t = (.ok b, u) → node.meaning.value ctx s = (.ok r, v) → typed r) ∧
    ∀ fc f w f' w' base, f.stack = b :: a :: base →
      MachineM.effect (Emit.arithInstr op form) fc (f, w) = (.ok (), f', w') → ∃ r, f'.stack = r :: base ∧ typed r := by
  intro node typed
  refine ⟨fun ctx s t u v r hl hr hrun => ?_, fun fc f w f' w' base hst hrun => ?_⟩
  · exact (ArithForm.gives_of_meaning hbuiltin hform hl hr hrun).hasType_iff hform ha
  · obtain ⟨r, htop, hgives⟩ := ArithForm.gives_of_effect hbuiltin hst hrun
    exact ⟨r, htop, hgives.hasType_iff hform ha⟩

/-- A null amount of a shift of a nullable. -/
theorem Tree.arith_hasType_iff_liftedShift :
    let left := Tree.constant 0 (.i64 6) (.nullable (.int .i64))
    let right := Tree.null 1 (.nullable (.int .u32))
    let start : Frame := ⟨#[], #[], [.null, .i64 6], []⟩
    ArithForm.choose? [] .shl left.ty right.ty true none = some (.builtin .wrap) ∧
      (Value.i64 6).hasType left.ty = true ∧
      ∀ fc w f' w', MachineM.effect (.arith .shl .wrap) fc (start, w) = (.ok (), f', w') →
        ∃ r, f'.stack = [r] ∧ r.hasType (Tree.arith 2 .shl left right true).ty = true := by
  intro left right start
  have hform : ArithForm.choose? [] .shl left.ty right.ty true none = some (.builtin .wrap) := rfl
  refine ⟨hform, rfl, fun fc w f' w' hrun => ?_⟩
  obtain ⟨r, htop, htyped⟩ := (Tree.arith_hasType_iff hform nofun rfl 2).2 fc start w f' w' [] rfl hrun
  exact ⟨r, htop, htyped.2 fun _ => .inr rfl⟩

/-- The sum of a number and a null is null, at a node of the number's type. -/
theorem Tree.arith_untyped_null :
    let x : Param := ⟨0, "x", .int .i32⟩
    let y : Param := ⟨1, "y", .nullable (.int .i32)⟩
    let node := Tree.arith 2 .add (.param 0 x) (.param 1 y) false
    ArithForm.choose? [] .add x.ty y.ty false none = some (.builtin .wrap) ∧
      (Value.i32 1).hasType x.ty = true ∧ Value.null.hasType y.ty = true ∧
      (∀ host inv w, Eval.evaluate ⟨[], host⟩ inv node [x, y] [.i32 1, .null] w = (.ok .null, w)) ∧
      ¬ Value.null.hasType node.ty = true :=
  ⟨rfl, rfl, rfl, fun _ _ _ => rfl, nofun⟩

end ExprCompiler
