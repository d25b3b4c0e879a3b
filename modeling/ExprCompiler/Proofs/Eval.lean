/-
Laws of the evaluator's computations: what is done to variables by a scope, and when one computation comes to what
another comes to but for a defect that it stops with.
-/
import ExprCompiler.Eval
import ExprCompiler.Proofs.Act

namespace ExprCompiler

/-- Computations that come to the same go on to do so. -/
theorem Act.bind_congr {ρ σ α β : Type} {x y : Act ρ σ α} {ctx : ρ} {s t : σ × World} (h : x ctx s = y ctx t)
    (f : α → Act ρ σ β) : (x >>= f) ctx s = (y >>= f) ctx t := by
  rw [Act.bind_apply, Act.bind_apply, h]

namespace EvalM

variable {α β : Type} {d : Defect} {x y z : EvalM α}

@[simp] theorem overloads_apply (ctx : EvalContext) (s : Activation × World) :
    overloads ctx s = (.ok (ctx.lib.operators ++ s.2.heap.registered), s) := rfl

theorem inScope_apply (xs : List (Param × Value)) (x : EvalM α) (ec : EvalContext) (s : Activation × World) :
    inScope xs x ec s = (.ok ((x ec (s.1 ++ xs.toArray, s.2)).1,
      (x ec (s.1 ++ xs.toArray, s.2)).2.1.toList.drop s.1.size), (x ec (s.1 ++ xs.toArray, s.2)).2.1.take s.1.size,
      (x ec (s.1 ++ xs.toArray, s.2)).2.2) := by
  rcases hx : x ec (s.1 ++ xs.toArray, s.2) with ⟨r, vars', w'⟩
  have hobserve : Act.observe x ec (s.1 ++ xs.toArray, s.2) = (.ok r, vars', w') := by rw [Act.observe_apply, hx]
  rw [inScope, Act.bind_ok (Act.own_apply ec s), Act.bind_ok (Act.modifyOwn_apply _ ec s), Act.bind_ok hobserve,
    Act.bind_ok (Act.own_apply ec _), Act.bind_ok (Act.modifyOwn_apply _ ec _), Act.pure_apply]

/-- Scopes end as they began: variables inside of them are dropped. -/
theorem within_apply (xs : List (Param × Value)) (x : EvalM α) (ec : EvalContext) (s : Activation × World) :
    within xs x ec s = ((x ec (s.1 ++ xs.toArray, s.2)).1, (x ec (s.1 ++ xs.toArray, s.2)).2.1.take s.1.size,
      (x ec (s.1 ++ xs.toArray, s.2)).2.2) := by
  rw [within, Act.bind_ok (inScope_apply xs x ec s), Act.ofExcept_apply]

/-! ## Computations up to a defect -/

/-- A computation comes to what another comes to, unless it stops with a defect. -/
def Follows (d : Defect) (x y : EvalM α) : Prop :=
  ∀ ctx s, (x ctx s).1 = .error (.defect d) ∨ x ctx s = y ctx s

namespace Follows

theorem refl (x : EvalM α) : Follows d x x := fun _ _ => .inr rfl

theorem bind {f g : α → EvalM β} (h : Follows d x y) (hfg : ∀ a, Follows d (f a) (g a)) :
    Follows d (x >>= f) (y >>= g) := by
  intro ctx s
  rcases hx : x ctx s with ⟨stop | a, s'⟩
  · rw [Act.bind_error hx]
    rcases h ctx s with hd | heq
    · rw [hx] at hd
      cases hd
      exact .inl rfl
    · rw [hx] at heq
      exact .inr (Act.bind_error heq.symm g).symm
  · rcases h ctx s with hd | heq
    · rw [hx] at hd
      cases hd
    · rw [Act.bind_ok hx, Act.bind_ok (heq.symm.trans hx)]
      exact hfg a ctx s'

theorem choice {c : Prop} {dec dec' : Decidable c} {x' y' : EvalM α} (h : Follows d x y) (h' : Follows d x' y') :
    Follows d (@ite _ c dec x x') (@ite _ c dec' y y') := by
  by_cases hc : c
  · rw [if_pos hc, if_pos hc]
    exact h
  · rw [if_neg hc, if_neg hc]
    exact h'

/-- A computation that stops unless a condition holds. -/
theorem alarm {c : Prop} {dec : Decidable c} (h : c → Follows d x y) :
    Follows d (@ite _ c dec x (Act.defect d)) y := by
  intro ctx s
  by_cases hc : c
  · rw [if_pos hc]
    exact h hc ctx s
  · rw [if_neg hc]
    exact .inl rfl

/-- A defect ends the whole of a computation. -/
theorem error_bind {f : α → EvalM β} {ctx : EvalContext} {s : Activation × World}
    (h : (x ctx s).1 = .error (.defect d)) : ((x >>= f) ctx s).1 = .error (.defect d) := by
  rcases hx : x ctx s with ⟨stop | a, s'⟩ <;> rw [hx] at h <;> cases h
  rw [Act.bind_error hx]

theorem inScope (xs : List (Param × Value)) (h : Follows d x y) {k : Except Stop α × List (Param × Value) → EvalM β}
    (hk : ∀ vs, k (.error (.defect d), vs) = Act.defect d) : Follows d (inScope xs x >>= k) (inScope xs y >>= k) := by
  intro ctx s
  rw [Act.bind_ok (inScope_apply xs x ctx s), Act.bind_ok (inScope_apply xs y ctx s)]
  rcases h ctx (s.1 ++ xs.toArray, s.2) with hd | heq
  · rw [hd, hk]
    exact .inl rfl
  · rw [heq]
    exact .inr rfl

theorem within (xs : List (Param × Value)) (h : Follows d x y) : Follows d (within xs x) (within xs y) := by
  intro ctx s
  rw [within_apply, within_apply]
  exact (h ctx (s.1 ++ xs.toArray, s.2)).imp id fun heq => by rw [heq]

theorem catching (exn : Value) (vars : List (Param × Value)) (h : Follows d x y) :
    Follows d (catching exn vars x) (catching exn vars y) :=
  Follows.within vars fun ctx s => h { ctx with handling := exn :: ctx.handling } s

/-- A defect is no exception. -/
theorem caught (h : Follows d x y) : Follows d (Act.caught x) (Act.caught y) := by
  intro ctx s
  unfold Act.caught
  rcases h ctx s with hd | heq
  · rw [Act.bind_ok (Act.observe_apply x ctx s), hd]
    exact .inl rfl
  · exact .inr (Act.bind_congr (by rw [Act.observe_apply, Act.observe_apply, heq]) _)

theorem values {f g : Tree → EvalM Value} : ∀ ts : List Tree, (∀ t ∈ ts, Follows d (f t) (g t)) →
    Follows d (ts.mapM f) (ts.mapM g)
  | [], _ => .refl _
  | t :: ts, h => by
    rw [List.mapM_cons, List.mapM_cons]
    exact (h t List.mem_cons_self).bind fun v =>
      (values ts fun u hu => h u (List.mem_cons_of_mem t hu)).bind fun vs => .refl _

end Follows

end EvalM

/-! ## Activations -/

namespace Eval

variable {α : Type} {lib : Library} {inv : Invoker} {self : Option LambdaRef} {label : String} {params : List Param}
  {args : List Value} {x y : EvalM α} {w : World}

theorem binding_eq (h : params.length = args.length) :
    binding lib inv self label params args x w = ((x ⟨lib, inv, self, []⟩ ((params.zip args).toArray, w)).1,
      (x ⟨lib, inv, self, []⟩ ((params.zip args).toArray, w)).2.2) := by
  rw [binding, if_pos h]
  rfl

theorem binding_follows {d : Defect} (h : EvalM.Follows d x y)
    (hd : (binding lib inv self label params args x w).1 ≠ .error (.defect d)) :
    binding lib inv self label params args x w = binding lib inv self label params args y w := by
  by_cases hlen : params.length = args.length
  · rw [binding_eq hlen] at hd ⊢
    rw [binding_eq hlen, (h _ _).resolve_left hd]
  · simp only [binding, if_neg hlen]

end Eval

end ExprCompiler
