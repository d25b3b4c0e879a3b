/-
The nodes of the language. Where calls of twins agree, the code of every tree simulates the tree's value in the
unit of every twin: operators act on the same numbers on both sides, calls go to twins, and lambdas make them.
-/
import ExprCompiler.Proofs.Conversion.Functions
import ExprCompiler.Proofs.Simulation.Instructions
import ExprCompiler.Proofs.Typing.Operators

namespace ExprCompiler

/-! ## Calls -/

section

variable (C : Converted) (κ : Set Twin)

/-- Arguments on the machine stand for arguments of the evaluator. -/
structure StandFor (tys : List Ty) (args as : List Value) : Prop where
  machine : args.length = tys.length
  eval : as.length = tys.length
  stands : ∀ (i : Nat) ty v a, tys[i]? = some ty → args[i]? = some v → as[i]? = some a → Stands C κ ty v a

/-- Arguments of a call, of which something is known if they are as many as the callee has formals. -/
structure Passed (tys : List Ty) (args as : List Value) : Prop where
  length : args.length = as.length
  stand : args.length = tys.length → StandFor C κ tys args as

/-- Calls end alike: with values that stand for each other, or with one exception. -/
def Converted.Agrees (ty : Ty) : Except Stop Value × World → Except Stop Value × World → Prop
  | (.ok v, w), (.ok a, wE) => ∃ κ', κ ≤ κ' ∧ Stands C κ' ty v a ∧ C.Paired κ' w wE
  | (.error stop, w), (.error stop', wE) => ∃ κ' v, κ ≤ κ' ∧ stop = .thrown v ∧ stop' = .thrown v ∧ C.Paired κ' w wE
  | _, _ => False

end

variable {C : Converted} {S : Surroundings C} {κ : Set Twin} {t : Twin} {ctx : EmitContext} {ty : Ty} {usage : Usage}
  {w wE : World}

theorem StandFor.passed {tys : List Ty} {args as : List Value} (h : StandFor C κ tys args as) :
    Passed C κ tys args as :=
  ⟨h.machine.trans h.eval.symm, fun _ => h⟩

/-- One side has stopped in a way of which nothing is said. -/
def Surroundings.Excuses (S : Surroundings C) (r rE : Except Stop Value × World) : Prop :=
  (∃ stop, S.evalExcused stop ∧ rE.1 = .error stop) ∨ ∃ stop, S.machineExcused stop ∧ r.1 = .error stop

/-- Calls of twins agree, where something is said of them. -/
def Surroundings.Calls (S : Surroundings C) : Prop :=
  ∀ κ w wE (t : Twin) args as, C.Paired κ w wE → t ∈ κ → Passed C κ (t.params.map Param.ty) args as →
    S.Excuses (S.machine t.compiled args w) (S.eval t.evaluated as wE) ∨
      C.Agrees κ t.body.ty (S.machine t.compiled args w) (S.eval t.evaluated as wE)

theorem withTypes_eq_zip {tys : List Ty} {as : List Value} (h : as.length = tys.length) :
    withTypes tys as = tys.zip as := by
  induction tys generalizing as with
  | nil =>
    obtain rfl := List.length_eq_zero_iff.1 h
    rfl
  | cons ty tys ih =>
    cases as with
    | nil => cases h
    | cons a as => rw [withTypes, ih (by simpa using h), List.zip_cons_cons]

/-- Arguments on the stack, the last one on top. -/
theorem StandFor.of_holds {tys : List Ty} {us as : List Value} (has : as.length = tys.length)
    (h : List.Forall₂ (fun x v => Stands C κ x.1 v x.2) (withTypes tys as).reverse us) :
    StandFor C κ tys us.reverse as := by
  rw [withTypes_eq_zip has] at h
  have hall := List.forall₂_reverse_iff.2 h
  rw [List.reverse_reverse] at hall
  refine ⟨?_, has, fun i ty v a hty hv ha => ?_⟩
  · rw [← hall.length_eq, List.length_zip]
    omega
  · obtain ⟨hi, rfl⟩ := List.getElem?_eq_some_iff.1 hv
    have hat := hall.get (hall.length_eq ▸ hi) hi
    obtain ⟨_, rfl⟩ := List.getElem?_eq_some_iff.1 hty
    obtain ⟨_, rfl⟩ := List.getElem?_eq_some_iff.1 ha
    simpa using hat

/-! ## Operators -/

/-- Arithmetic on numbers and truth values keeps the type of its left operand. -/
theorem Value.hasType_arith {op : ArithOp} {l r u : Value} {mode : Overflow} (hl : l.isScalar = true)
    (hr : r.isScalar = true) (h : l.arith op r mode = .ok u) (ty : Ty) : u.hasType ty = l.hasType ty := by
  obtain ⟨rfl, rfl | rfl⟩ | ⟨-, -, hakin⟩ := Value.arith_cases h
  · cases hl
  · cases hr
  · exact hakin.hasType_eq ty

namespace Converted

open Bridge EmitM

theorem hasZero (h : ty.isSimple = true) : (C.bridge S t).HasZero ty :=
  fun _ => .zero h

theorem widens {ty' : Ty} (h : ty = ty') : (C.bridge S t).Widens ty ty' := by
  subst h
  exact fun _ _ _ hv => hv

theorem tests : (C.bridge S t).Tests .bool := by
  intro κ v a h
  rw [(Stands.eq h rfl).1]

/-- Both sides come to the same number or truth value, or raise the same exception. -/
theorem acts_settled {r : Except Cause Value} {vars : Activation}
    (hr : ∀ u, r = .ok u → u.isScalar = true ∧ (C.strict → u.hasType ty = true))
    (hworld : (C.bridge S t).world κ w wE) :
    (C.bridge S t).Acts 1 κ vars (fun κ a => (C.bridge S t).Holds κ [(ty, a)]) (fun v => [v]) (w.settled r)
      ((wE.settled r).1, vars, (wE.settled r).2) := by
  obtain ⟨hin, hpaired⟩ := hworld
  cases r with
  | ok u =>
    obtain ⟨hscalar, htype⟩ := hr u rfl
    exact ⟨rfl, κ, u, w, le_rfl, rfl, rfl, .cons (.scalar hscalar htype) .nil, hin, hpaired⟩
  | error c =>
    refine ⟨rfl, κ, .thrown (wE.heap.raise c).1, { w with heap := (wE.heap.raise c).2 }, le_rfl, ?_, _, rfl, rfl, hin,
      hpaired.allocate _⟩
    rw [World.settled, hpaired.heap]

/-- An operator on two numbers or truth values. -/
theorem binary {i : Instr} {tl tr : Ty} {l r : Value} {g : Value → Value → Except Cause Value}
    (hi : MachineM.effect i = MachineM.binary g) (hplain : i.isPlain = true) (hflow : i.endsFlow = false)
    (hpops : i.pops = 2) (hpushes : i.pushes = 1) (hl : tl.isScalar = true) (hr : tr.isScalar = true)
    (hg : l.isScalar = true → r.isScalar = true → (C.strict → l.hasType tl = true) →
      ∀ u, g l r = .ok u → u.isScalar = true ∧ (C.strict → u.hasType ty = true)) :
    (C.bridge S t).Code ctx [(tr, r), (tl, l)] 1 (emit i) (Act.settle (g l r)) fun u => [(ty, u)] := by
  have hemits : Emits ctx 2 1 (emit i) := (Emits.emit i hplain).cast hpops hpushes
  refine Sim.perform hplain hemits (.inl hflow) fun κ vs _ hvs => ?_
  rcases hvs with _ | ⟨hr', hvs⟩
  obtain ⟨v, rfl, hl'⟩ := Holds.one hvs
  obtain ⟨rfl, hrs, -⟩ := Stands.eq hr' hr
  obtain ⟨rfl, hls, hlt⟩ := Stands.eq hl' hl
  refine ⟨Value, _, _, MachineM.performs_binary hi v _, fun handling vars w wE hworld => .inr ?_⟩
  rw [Act.settle_apply]
  exact acts_settled (hg hls hrs hlt) hworld

theorem arith {op : ArithOp} {left right : Tree} {checked : Bool} (hl : (C.bridge S t).Used ctx .value left)
    (hr : (C.bridge S t).Used ctx .value right) (htl : left.ty = .int .i32) (htr : right.ty = .int .i32) :
    (C.bridge S t).Code ctx [] 1 (Emit.arith op (.of Tree.emission left) (.of Tree.emission right) checked none)
      (Eval.arith op (.of Tree.meaning left) (.of Tree.meaning right) checked none) fun u => [(.int .i32, u)] := by
  obtain ⟨mode, hform⟩ := ArithForm.choose?_i32 op checked
  have hcode : (C.bridge S t).Code ctx [] 1 (do
      Emitted.value (.of Tree.emission left)
      Emitted.value (.of Tree.emission right)
      emit (.arith op mode)) (do
      let l ← Evaluated.value (.of Tree.meaning left)
      let r ← Evaluated.value (.of Tree.meaning right)
      Act.settle (l.arith op r mode)) fun u => [(.int .i32, u)] := by
    refine Code.bind_two hl.value hr.value fun l r => ?_
    refine binary (g := fun a b => a.arith op b mode) rfl rfl rfl rfl rfl (by rw [htl]; rfl) (by rw [htr]; rfl) ?_
    intro hls hrs hlt u hu
    have htype := Value.hasType_arith hls hrs hu
    rw [Value.isScalar, htype, htype, ← htl]
    exact ⟨by rw [htl]; exact hls, hlt⟩
  refine (hcode.of_code fun b => ?_).of_eval fun handling s => ?_
  · unfold Emit.arith
    rw [EmitM.bind_apply, EmitM.read_apply]
    simp only [Tree.Child.ty_of, htl, htr, hform]
    rfl
  · unfold Eval.arith
    simp only [Tree.Child.ty_of, htl, htr, hform]
    rfl

theorem compare {op : CmpOp} {left right : Tree} (hl : (C.bridge S t).Used ctx .value left)
    (hr : (C.bridge S t).Used ctx .value right) (htl : left.ty.isScalar = true) (htr : right.ty = left.ty) :
    (C.bridge S t).Code ctx [] 1 (Emit.compare op (.of Tree.emission left) (.of Tree.emission right) none)
      (Eval.compare op (.of Tree.meaning left) (.of Tree.meaning right) none) fun u => [(.bool, u)] := by
  have hform := CompareForm.choose?_of_isScalar htl
  have hcode : (C.bridge S t).Code ctx [] 1 (do
      Emitted.value (.of Tree.emission left)
      Emitted.value (.of Tree.emission right)
      (Emit.compareInstrs op .builtin).forM emit) (do
      let l ← Evaluated.value (.of Tree.meaning left)
      let r ← Evaluated.value (.of Tree.meaning right)
      Act.settle (.ok (.bool (l.compareBy op r)))) fun u => [(.bool, u)] := by
    refine Code.bind_two hl.value hr.value fun l r => ?_
    rw [show (Emit.compareInstrs op .builtin).forM emit = emit (.compare op) from bind_pure_unit]
    refine binary (g := fun a b => .ok (.bool (a.compareBy op b))) rfl rfl rfl rfl rfl htl (by rw [htr]; exact htl) ?_
    rintro - - - u ⟨⟩
    exact ⟨rfl, fun _ => rfl⟩
  refine (hcode.of_code fun b => ?_).of_eval fun handling s => ?_
  · unfold Emit.compare
    rw [EmitM.bind_apply, EmitM.read_apply]
    simp only [Tree.Child.ty_of, htr, hform]
  · unfold Eval.compare
    rw [Act.bind_ok (EvalM.overloads_apply _ s)]
    simp only [Tree.Child.ty_of, htr, hform]
    rfl

theorem constant {v : Value} (hty : ty.isScalar = true) (hv : v.hasType ty = true) (id : NodeId) :
    (C.bridge S t).Code ctx [] 1 (Emit.constant id v) (pure v) fun a => [(ty, a)] := by
  have himm : v.isImmediate = true := by
    rcases Value.cases_of_isScalar hty hv with ⟨n, -, rfl, -⟩ | ⟨b, -, rfl⟩ <;> rfl
  unfold Emit.constant
  rw [if_pos himm]
  refine Sim.shuffle rfl (.emit (.const v) rfl) rfl fun κ vs _ hvs => ?_
  cases hvs
  exact ⟨[v], MachineM.shuffles_const v, rfl, .cons (.typed hty hv) .nil⟩

theorem Agrees.acts {r rE : Except Stop Value × World} {vars : Activation} (h : C.Agrees κ ty r rE) (hin : t ∈ κ) :
    (C.bridge S t).Acts 1 κ vars (fun κ a => (C.bridge S t).Holds κ [(ty, a)]) (fun v => [v]) r (rE.1, vars, rE.2) := by
  rcases r with ⟨stop | v, w⟩ <;> rcases rE with ⟨stop' | a, wE⟩
  · obtain ⟨κ', u, hκ, rfl, rfl, hpaired⟩ := h
    exact ⟨rfl, κ', _, w, hκ, rfl, u, rfl, rfl, hκ hin, hpaired⟩
  · exact h.elim
  · exact h.elim
  · obtain ⟨κ', hκ, hv, hpaired⟩ := h
    exact ⟨rfl, κ', v, w, hκ, rfl, rfl, .cons hv .nil, hκ hin, hpaired⟩

/-- A value that is no function is called on both sides. -/
theorem invoked_refused {f : Value} {cause : Cause} {args as : List Value} (hf : f.asCallable = .error cause)
    (hpaired : C.Paired κ w wE) : C.Agrees κ ty (w.invoked S.machine f args) (wE.invoked S.eval f as) := by
  simp only [World.invoked, hf, World.settled, hpaired.heap]
  exact ⟨κ, _, le_rfl, rfl, rfl, hpaired.allocate _⟩

theorem invoked_scalar {f : Value} {args as : List Value} (hf : f.isScalar = true) (hpaired : C.Paired κ w wE) :
    C.Agrees κ ty (w.invoked S.machine f args) (wE.invoked S.eval f as) := by
  rcases Value.isScalar_cases hf with ⟨n, rfl⟩ | ⟨b, rfl⟩ <;> exact invoked_refused rfl hpaired

/-- A function is called on both sides. -/
theorem invoked_agrees {params : List Ty} {f g : Value} {args as : List Value} (hS : S.Calls)
    (hf : Stands C κ (.func params ty) f g) (hargs : Passed C κ params args as) (hpaired : C.Paired κ w wE) :
    S.Excuses (w.invoked S.machine f args) (wE.invoked S.eval g as) ∨
      C.Agrees κ ty (w.invoked S.machine f args) (wE.invoked S.eval g as) := by
  cases hf with
  | scalar hv _ => exact .inr (invoked_scalar hv hpaired)
  | null => exact .inr (invoked_refused rfl hpaired)
  | function hmem => exact hS κ w wE _ args as hpaired hmem hargs

theorem invoke {target : Tree} {args : List Tree} (hS : S.Calls) (hty : ty.isSimple = true)
    (htarget : target.ty = .func (args.map Tree.ty) ty) (ht : (C.bridge S t).Used ctx .value target)
    (ha : ∀ a ∈ args, (C.bridge S t).Used ctx .value a) :
    (C.bridge S t).Code ctx [] ty.count (Emit.invoke ty (.of Tree.emission target) (args.map (.of Tree.emission)))
      (Eval.value ty (.invoke (.of Tree.meaning target) (args.map (.of Tree.meaning)))) ty.leaves := by
  have hvoid := Ty.isVoid_of_isSimple hty
  unfold Emit.invoke
  refine Sim.ite (fun _ => .declined _ _) fun _ => ?_
  refine Code.bind_one ht.value fun g => Code.bind_values ha fun as has => ?_
  have hcode : (C.bridge S t).Code ctx ((withTypes (args.map Tree.ty) as).reverse ++ [(target.ty, g)]) ty.count
      (emit (.invoke (args.map (Tree.Child.of Tree.emission)).length (!ty.isVoid)))
      (do Act.invoke (← read).inv g as) ty.leaves := by
    rw [Ty.count_eq_one hvoid, funext (Ty.leaves_of_not_isVoid hvoid), hvoid, List.length_map]
    refine Sim.perform rfl ((Emits.emit (.invoke args.length true) rfl).cast ?_ rfl) (.inl rfl) fun κ vs _ hvs => ?_
    · simp [Instr.pops, has]
    · obtain ⟨us, ws, rfl, hus, hws⟩ := holds_append.1 hvs
      obtain ⟨f, rfl, hf⟩ := Holds.one hws
      rw [htarget] at hf
      have hargs : StandFor C κ (args.map Tree.ty) us.reverse as := .of_holds (by rw [List.length_map, has]) hus
      refine ⟨Value, fun w => w.invoked S.machine f us.reverse, fun v => [v], ?_, fun handling vars w wE hworld => ?_⟩
      · have hperf : MachineM.Performs (C.bridge S t).machine (.invoke us.reverse.length true)
          (us.reverse.reverse ++ [f])
            (fun w => w.invoked S.machine f us.reverse) fun v => [v] := MachineM.performs_invoke f true
        rwa [hargs.machine, List.length_map, List.reverse_reverse] at hperf
      · have heval : (do Act.invoke (← read).inv g as : EvalM Value) ((C.bridge S t).eval handling) (vars, wE) =
            ((wE.invoked S.eval g as).1, vars, (wE.invoked S.eval g as).2) := Act.onWorld_invoke S.eval g as vars wE
        rw [heval]
        exact (invoked_agrees hS hf hargs.passed hworld.2).imp id fun hagrees => hagrees.acts hworld.1
  have hunless := Code.unlessVoid rfl hcode
  simp only [bind_assoc] at hunless
  exact hunless

/-- A function that is not wanted is made by the evaluator alone. -/
theorem lambda_unused {params : List Param} {body : Tree} {name : Option String} :
    (C.bridge S t).Code ctx [] 0 (pure ()) (Eval.instantiate params body name) fun _ => [] := by
  refine Sim.unnoticed fun κ handling vars w wE vs ⟨hin, hpaired⟩ hvs => ⟨_, _, rfl, ⟨hin, ?_⟩, hvs⟩
  refine ⟨hpaired.heap, fun t' ht' => (hpaired.held t' ht').mono le_rfl (fun _ _ hc => hc) fun i l hl => ?_,
    hpaired.closures, hpaired.lambdas⟩
  obtain ⟨hlt, rfl⟩ := Array.getElem?_eq_some_iff.1 hl
  exact Array.getElem?_push_lt hlt

/-! ## Trees -/

/-- A node, from its children. -/
theorem used_node {id : NodeId} {s : Shape Tree} (hS : S.Calls) (ho : Tree.Occurs (.node id ty s) C.root)
    (hty : ty.isSimple = true) (hs : s.SimplyTyped ty) (hw : t.Within C ctx)
    (hc : ∀ c ∈ s.children, ∀ ctx, t.Within C ctx → ∀ usage, (C.bridge S t).Used ctx usage c) :
    (C.bridge S t).Code ctx [] usage.count (Emit.used id ty (s.map (.of Tree.emission)) usage)
      (Eval.value ty (s.map (.of Tree.meaning))) (usage.leaves ty) := by
  have hvoid := Ty.isVoid_of_isSimple hty
  have hu : usage = .value → ty.isVoid = false := fun _ => hvoid
  have hused : ∀ c ∈ s.children, ∀ usage, (C.bridge S t).Used ctx usage c := fun c hmem => hc c hmem ctx hw
  have hvalue : ∀ c ∈ s.children, (C.bridge S t).Used ctx .value c := fun c hmem => hused c hmem .value
  have hsettled : ∀ {x : EmitM Unit} {e : EvalM Value}, (C.bridge S t).Code ctx [] 1 x e (fun a => [(ty, a)]) →
      (C.bridge S t).Code ctx [] usage.count (do x; settle usage ty) e (usage.leaves ty) := by
    intro x e h
    refine Code.settle ?_ hu
    rwa [Ty.count_eq_one hvoid, funext (Ty.leaves_of_not_isVoid hvoid)]
  cases s with
  | constant v => exact Code.wanted (constant hs.1 hs.2 id)
  | parameter p =>
    obtain rfl : p.ty = ty := hs
    exact Used.parameter fun slot hcap => load_captured hw hcap
  | lambda ps body name =>
    cases usage with
    | value => exact lambda hw ho
    | discard => exact lambda_unused
  | invoke target args =>
    refine Code.settle (invoke hS hty hs (hvalue target (by simp)) fun a ha => hvalue a ?_) hu
    simp [ha]
  | arith op l r checked m =>
    obtain ⟨rfl, hl, hr, rfl⟩ := hs
    exact hsettled (arith (hvalue l (by simp)) (hvalue r (by simp)) hl hr)
  | compare op l r m =>
    obtain ⟨rfl, hl, hr, rfl⟩ := hs
    exact hsettled (compare (hvalue l (by simp)) (hvalue r (by simp)) hl hr)
  | logical op l r =>
    obtain ⟨hl, hr, rfl⟩ := hs
    refine hsettled (Used.logical (hvalue l (by simp)) (hvalue r (by simp)) ?_
      (widens hl) (widens hr))
    rw [hl]
    exact tests
  | cond test a b =>
    obtain ⟨htest, ha, hb⟩ := hs
    refine Used.cond hu (hasZero hty) (hvalue test (by simp)) ?_ (hused a (by simp))
      (widens ha) (hused b (by simp)) (widens hb)
    rw [htest]
    exact tests
  | block vars body =>
    obtain ⟨hvars, hlast⟩ := hs
    have hbody : ∀ scope : List (Param × Nat), ∀ c ∈ body, ∀ usage, (C.bridge S t).Used (ctx.enter scope []) usage c :=
      fun scope c hmem => hc c hmem _ (hw.enter scope [])
    have hwidens : ∀ c ∈ body.getLast?, (C.bridge S t).Widens c.ty ty := fun c hmem => widens (hlast c hmem)
    exact Used.block hu (hasZero hty) (fun p hp => hasZero (hvars p hp))
      (fun scope => (Used.statements hu (hasZero hty) (hbody scope) hwidens).emits) (fun scope _ => hbody scope) hwidens
  | assign target v =>
    obtain ⟨⟨p, htarget⟩, htyped, hv⟩ := hs
    rcases target with ⟨id', ty', s'⟩
    obtain rfl : s' = .parameter p := htarget
    obtain rfl : ty' = ty := htyped
    have hchild : Tree.Occurs (.node id' ty' (.parameter p)) C.root :=
      (Tree.Occurs.of_child List.mem_cons_self).trans ho
    obtain rfl : p.ty = ty' := (C.typed.of_occurs hchild).2
    have hsource := (hvalue v (by simp)).value
    rw [hv] at hsource
    exact Code.assignParameter hsource fun slot hcap => assign_captured hw hcap hsource
  | _ => exact hs.elim

/-- The code of each tree simulates the tree's value, in the unit of every twin. -/
theorem simulated {n : Tree} (hS : S.Calls) (ho : n.Occurs C.root) :
    ∀ ctx, t.Within C ctx → ∀ usage, (C.bridge S t).Used ctx usage n := by
  induction n using Tree.induct with
  | node id ty s ih =>
    intro ctx hw usage
    obtain ⟨hty, hs⟩ := C.typed.of_occurs ho
    rw [Used, Tree.emission, Tree.fold_node, show (C.bridge S t).meaning (.node id ty s) =
      _ from Tree.meaning_node id ty s]
    exact Sim.ite (fun _ => .decline _) fun _ => used_node hS ho hty hs hw fun c hc =>
      ih c hc ((Tree.Occurs.of_child hc).trans ho)

end Converted

end ExprCompiler
