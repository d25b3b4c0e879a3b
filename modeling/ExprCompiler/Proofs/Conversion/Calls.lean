/-
Calls of twins. A call of a compiled function runs its unit next to the evaluator, which evaluates the body of the
function's twin; inside of both, other twins are called. By induction on the fuel, calls of twins end alike whenever
one side has enough of it: the evaluator needs no more fuel than the machine, and the machine the length of the
longest unit on top of the evaluator's.
-/
import ExprCompiler.Invoke
import ExprCompiler.Proofs.Conversion.Nodes

namespace ExprCompiler

/-- A twin has a closure if its unit has a layout for one. -/
theorem Twin.Made.layout_isSome {C : Converted} {t : Twin} (h : t.Made C) :
    (t.capture.layout? C.limit).isSome = t.closure.isSome := by
  rw [h.closure, Capture.layout?]
  cases t.capture.isEmpty <;> rfl

namespace Converted

open Bridge

variable {C : Converted} {S : Surroundings C} {κ : Set Twin} {t : Twin} {w wE : World} {u : CodeUnit}
    {args as : List Value}

/-- The body of a twin is the value that its unit returns. -/
theorem result (hS : S.Calls) (ht : t.Made C) :
    (C.bridge S t).Sim (t.start C) 0 1 (fun _ vs => vs = []) (Emit.result t.body t.body.ty)
      (Evaluated.valueAs (.of Tree.meaning t.body) t.body.ty) fun κ a vs => ∃ v, vs =
        [v] ∧ Stands C κ t.body.ty v a := by
  have hty : t.body.ty.isSimple = true := (C.typed.of_occurs ht.occurs).1
  have hvoid := Ty.isVoid_of_isSimple hty
  have hcode : (C.bridge S t).Code (t.start C) [] 1 (Emit.result t.body t.body.ty)
      (Evaluated.valueAs (.of Tree.meaning t.body) t.body.ty) fun a => [(t.body.ty, a)] := by
    unfold Emit.result
    rw [hvoid]
    have hvalue : (C.bridge S t).Code (t.start C) [] Usage.value.count _ _ (Usage.value.leaves t.body.ty) :=
      Used.valueAs (simulated hS ht.occurs (t.start C) ⟨ht, rfl, rfl⟩) (widens rfl) (hasZero hty)
        fun _ => hvoid
    exact hvalue
  refine hcode.mono (fun κ vs hvs => hvs ▸ .nil) fun κ a vs hvs => ?_
  obtain ⟨v, rfl, hv⟩ := Holds.one hvs
  exact ⟨v, rfl, hv⟩

theorem Agrees.of_returns {ty : Ty} {r : Except Stop Value × World} {rE : Except Stop Value × Activation × World}
    (h : (C.bridge S t).Returns κ (fun κ a v => Stands C κ ty v a) r rE) : C.Agrees κ ty r (rE.1, rE.2.2) := by
  rcases r with ⟨r, w⟩
  rcases rE with ⟨stop | a, vars, wE⟩
  · obtain ⟨κ', _, hκ, rfl, v, rfl, rfl, -, hpaired⟩ := h
    exact ⟨κ', v, hκ, rfl, rfl, hpaired⟩
  · obtain ⟨κ', v, hκ, rfl, hv, -, hpaired⟩ := h
    exact ⟨κ', hκ, hv, hpaired⟩

variable {fuel : Nat}

/-- Both sides refuse a call with more or fewer arguments than a twin has formals. -/
theorem refused (hpaired : C.Paired κ w wE) (ht : t ∈ κ) (hu : t.HasUnit C u) (hlen : args.length = as.length)
    (hne : args.length ≠ t.params.length) :
    C.Agrees κ t.body.ty (u.invoke S.lib S.machine fuel t.closure args w) (Eval.call S.lib S.eval t.lambda as wE) := by
  obtain ⟨captured, hl, -⟩ := (hpaired.held t ht).lambda
  obtain ⟨-, ⟨b, b', D, D', hcode⟩, -⟩ := hu
  obtain ⟨hname, hparams, -⟩ := hcode.head
  have harity : u.arity = t.params.length := by
    rw [CodeUnit.arity, hparams, List.length_map]
    rfl
  have hM : u.invoke S.lib S.machine fuel t.closure args w =
      CodeUnit.refuse (.argumentCount (t.name.getD "lambda") t.params.length args.length) w := by
    rw [CodeUnit.invoke, harity, hname, if_pos hne]
  have hE : Eval.call S.lib S.eval t.lambda as wE =
      CodeUnit.refuse (.argumentCount (t.name.getD "lambda") t.params.length args.length) wE := by
    rw [hlen] at hne ⊢
    simp only [Eval.call, hl, Eval.activate, Eval.binding, if_neg hne.symm]
    rfl
  rw [hM, hE]
  simp only [CodeUnit.refuse, hpaired.heap]
  exact ⟨κ, _, le_rfl, rfl, rfl, hpaired.allocate _⟩

/-- The unit of a twin runs on the machine if it gets as many arguments as it has formals. -/
theorem invoke_unit (ht : t.Made C) (hu : t.HasUnit C u) (hlen : args.length = t.params.length) :
    u.invoke S.lib S.machine fuel t.closure args w =
      u.run (C.bridge S t).machine fuel ⟨0, u.frame t.closure args, w⟩ := by
  obtain ⟨-, ⟨b, b', D, D', hcode⟩, -⟩ := hu
  obtain ⟨-, hparams, hlayout⟩ := hcode.head
  have harity : args.length = u.arity := by
    rw [CodeUnit.arity, hparams, List.length_map]
    exact hlen
  have hclosure : u.layout.isSome = t.closure.isSome := by
    rw [hlayout]
    exact ht.layout_isSome
  simp only [CodeUnit.invoke, harity, hclosure, (Builder.finished hcode.finish).native, ne_eq, not_true_eq_false,
    if_false, Option.bind_none]
  rfl

/-- A call of a twin on both sides, where the calls inside of it agree. -/
theorem called (hS : S.Calls) (hpaired : C.Paired κ w wE) (ht : t ∈ κ) (hu : t.HasUnit C u)
    (hargs : StandFor C κ (t.params.map Param.ty) args as)
    (hfuel : S.machineExcused .exhausted ∨ u.instrs.size ≤ fuel) :
    S.Excuses (u.invoke S.lib S.machine fuel t.closure args w) (Eval.call S.lib S.eval t.lambda as wE) ∨
      C.Agrees κ t.body.ty (u.invoke S.lib S.machine fuel t.closure args w)
    (Eval.call S.lib S.eval t.lambda as wE) := by
  have hheld := hpaired.held t ht
  have hlen : args.length = t.params.length := by simpa using hargs.machine
  have hlen' : as.length = t.params.length := by simpa using hargs.eval
  obtain ⟨captured, hl, -⟩ := hheld.lambda
  have hE : Eval.call S.lib S.eval t.lambda as wE =
      ((Evaluated.valueAs (.of Tree.meaning t.body) t.body.ty ((C.bridge S t).eval [])
        ((t.params.zip as).toArray, wE)).1,
        (Evaluated.valueAs (.of Tree.meaning t.body) t.body.ty ((C.bridge S t).eval []) ((t.params.zip as).toArray,
          wE)).2.2) := by
    simp only [Eval.call, hl, Eval.activate, Eval.binding_eq hlen'.symm]
    rfl
  rw [invoke_unit hheld.made hu hlen, hE]
  obtain ⟨-, ⟨b, b', D, D', hcode⟩, hsmall⟩ := hu
  obtain ⟨-, hparams, hlayout⟩ := hcode.head
  have hfew : t.params.length < Nat.pow 2 16 := by
    have := hsmall.params
    rwa [hparams, List.length_map] at this
  have hcorr : (C.bridge S t).Corresponds (t.start C) κ [] (u.frame t.closure args) (t.params.zip as).toArray := by
    refine corresponds_start hheld.made.layout_isSome hlen hlen' fun i p v a hp hv ha => ?_
    exact hargs.stands i p.ty v a (by rw [List.getElem?_map, hp]; rfl) hv ha
  have hframe : (u.frame t.closure args).stack = [] ∧ (u.frame t.closure args).pending = [] ∧
      (u.frame t.closure args).locals.size = u.locals.size := ⟨rfl, rfl, by simp [CodeUnit.frame]⟩
  exact (run_returns hcode (result hS hheld.made) hsmall.locals.le (fits_start hheld.made.formals hfew) hframe hcorr
    ⟨ht, hpaired⟩ hfuel).imp id Agrees.of_returns

/-! ## Fuel -/

/-- Calls by a program, with one amount of fuel for compiled functions and another one for evaluated ones. -/
def surroundings (lib : Library) (C : Converted) (machine eval : Nat) (machineExcused evalExcused : Prop) :
    Surroundings C where
  lib := lib
  machine := Program.invoke ⟨C.units, lib⟩ machine
  eval := Program.invoke ⟨C.units, lib⟩ eval
  machineExcused stop := (machineExcused ∧ stop = .exhausted) ∨ ¬C.strict ∧ stop.failsCheck = true
  evalExcused stop := evalExcused ∧ stop = .exhausted
  checks hstrict _ hstop := .inr ⟨hstrict, hstop⟩

variable {lib : Library} {M E : Prop} {m n : Nat}

/-- One level more of calls. -/
theorem calls_succ (h : (surroundings lib C m n M E).Calls) (hfuel : M ∨ ∀ u ∈ C.units, u.instrs.size ≤ m) :
    (surroundings lib C (m + 1) (n + 1) M E).Calls := by
  intro κ w wE t args as hpaired ht hargs
  obtain ⟨u, hu⟩ := (hpaired.held t ht).made.hasUnit
  have hM : (surroundings lib C (m + 1) (n + 1) M E).machine t.compiled args w =
      u.invoke lib (Program.invoke ⟨C.units, lib⟩ m) m t.closure args w := by
    simp only [surroundings, Twin.compiled, Program.invoke, hu.linked]
  rw [hM]
  by_cases hlen : args.length = t.params.length
  · exact called h hpaired ht hu (hargs.stand (by simpa using hlen))
      (hfuel.imp (fun hM => .inl ⟨hM, rfl⟩) fun hall => hall u (Array.mem_of_getElem? hu.linked))
  · exact .inr (refused (S := surroundings lib C m n M E) hpaired ht hu hargs.length hlen)

/-- What the evaluator comes to, the machine comes to with fuel for one pass over each unit on top. -/
theorem calls_of_eval {size : Nat} (hsize : ∀ u ∈ C.units, u.instrs.size ≤ size) :
    ∀ n m, n + size ≤ m → (surroundings lib C m n False True).Calls
  | 0, m, _ => fun κ w wE t args as _ _ _ => .inl (.inl ⟨_, ⟨trivial, rfl⟩, rfl⟩)
  | n + 1, 0, hle => by omega
  | n + 1, m + 1, hle => calls_succ (calls_of_eval hsize n m (by omega))
    (.inr fun u hu => (hsize u hu).trans (by omega))

/-- What the machine comes to, the evaluator comes to with the same fuel. -/
theorem calls_of_machine : ∀ m n, m ≤ n → (surroundings lib C m n True False).Calls
  | 0, n, _ => fun κ w wE t args as _ _ _ => .inl (.inr ⟨_, .inl ⟨trivial, rfl⟩, rfl⟩)
  | m + 1, 0, hle => by omega
  | m + 1, n + 1, hle => calls_succ (calls_of_machine m n (by omega)) (.inl trivial)

end Converted

end ExprCompiler
