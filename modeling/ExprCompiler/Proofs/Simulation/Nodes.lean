/-
Kinds of nodes whose code is the same for all bridges: values where a type is expected, arguments,
statements and blocks, choices, and variables of the unit. Each rule takes the simulations of the
children and gives that of the node.
-/
import ExprCompiler.Proofs.Simulation.Scopes

namespace ExprCompiler

/-- What a usage leaves of a value on the stack. -/
def Usage.leaves (usage : Usage) (ty : Ty) (a : Value) : List (Ty × Value) :=
  match usage with
  | .value => [(ty, a)]
  | .discard => []

/-- What a node of a type leaves of its value on the stack. -/
def Ty.leaves (ty : Ty) (a : Value) : List (Ty × Value) :=
  if ty.isVoid then [] else [(ty, a)]

theorem Ty.length_leaves (ty : Ty) (a : Value) : (ty.leaves a).length = ty.count := by
  unfold leaves count
  split <;> rfl

theorem Ty.leaves_of_not_isVoid {ty : Ty} (h : ty.isVoid = false) (a : Value) : ty.leaves a = [(ty, a)] := by
  simp [leaves, h]

theorem Ty.leaves_unlessVoid {ty ty' : Ty} (h : ty.isVoid = ty'.isVoid) (a : Value) :
    ty.leaves (Eval.unlessVoid ty' a) = ty.leaves a := by
  unfold Ty.leaves Eval.unlessVoid
  rw [h]
  split <;> rfl

/-- Values with the types of the nodes that they come from. -/
def withTypes : List Ty → List Value → List (Ty × Value)
  | ty :: tys, a :: as => (ty, a) :: withTypes tys as
  | [], as => as.map fun a => (.void, a)
  | _, [] => []

@[simp] theorem map_snd_withTypes : ∀ (tys : List Ty) (as : List Value), (withTypes tys as).map Prod.snd = as
  | ty :: tys, a :: as => by rw [withTypes, List.map_cons, map_snd_withTypes tys as]
  | [], as => by simp [withTypes]
  | ty :: tys, [] => rfl

@[simp] theorem length_withTypes (tys : List Ty) (as : List Value) : (withTypes tys as).length = as.length := by
  have hlen := congrArg List.length (map_snd_withTypes tys as)
  rwa [List.length_map] at hlen

theorem Usage.unlessVoid_eq {usage : Usage} {ty : Ty} (hu : usage = .value → ty.isVoid = false) :
    usage.unlessVoid ty = usage := by
  cases usage with
  | value => simp [Usage.unlessVoid, hu rfl]
  | discard => simp [Usage.unlessVoid]

namespace Bridge

open EmitM

variable {B : Bridge} {ctx : EmitContext} {α β : Type} {m n : Nat} {Pre : B.Stage → List Value → Prop} {x : EmitM Unit}
  {e : EvalM α} {ty : Ty} {usage : Usage} {Post : B.Stage → α → List Value → Prop}

/-! ## Values -/

/-- A computation whose value is changed by the evaluator alone. -/
theorem Sim.map {Mid : B.Stage → α → List Value → Prop} {Post : B.Stage → β → List Value → Prop}
    (h : B.Sim ctx m n Pre x e Mid) (f : α → β) (hpost : ∀ κ a vs, Mid κ a vs → Post κ (f a) vs) :
    B.Sim ctx m n Pre x (e >>= fun a => pure (f a)) Post where
  emits := h.emits
  runs {b b' D u} ht hfit hpast hrun hlink κ handling s vars w wE vs base hready hstack hlen hpre := by
    have hout := h.runs ht hfit hpast hrun hlink hready hstack hlen hpre
    rcases hr : e (B.eval handling) (vars, wE) with ⟨stop | a, vars₁, wE₁⟩ <;> rw [hr] at hout
    · rw [Act.bind_error hr]
      exact hout.imp (fun hexc => hexc.error) fun hends => hends
    · rw [Act.bind_ok hr, Act.pure_apply]
      rcases hout with hexc | hends
      · exact .inl (hexc.machine _)
      · obtain ⟨κ', f', w', vs', harr, hlen', hmid, hw⟩ := hends
        exact .inr ⟨κ', f', w', vs', harr, hlen', hpost κ' a vs' hmid, hw⟩

/-- No code for a computation that gives what is known already. -/
theorem Sim.nothing {a : α} (h : ∀ κ vs, Pre κ vs → Post κ a vs) :
    B.Sim ctx m m Pre (pure ()) (pure a) Post where
  emits := .of_pure m ()
  runs {b b' D u} ht hfit hpast hrun hlink κ handling f vars w wE vs base hready hstack hlen hpre := by
    cases hrun
    refine .inr ⟨κ, f, w, vs, ⟨⟨le_rfl, hready.corresponds, .refl _ f⟩, .refl, hstack, rfl, hready.depth⟩, hlen,
      h κ vs hpre, hready.world⟩

/-- A computation that gives null instead of the value of a void node. -/
theorem Code.unlessVoid {before : List (Ty × Value)} {e : EvalM Value} {ty' : Ty} (hv : ty.isVoid = ty'.isVoid)
    (h : B.Code ctx before ty.count x e ty.leaves) :
    B.Code ctx before ty.count x (e >>= fun a => pure (Eval.unlessVoid ty' a)) ty.leaves :=
  Sim.map h _ fun κ a vs hvs => by rwa [Ty.leaves_unlessVoid hv]

/-- The code of a node that is not wanted drops what the node leaves. -/
theorem Code.settle {e : EvalM Value} (hx : B.Code ctx [] ty.count x e ty.leaves)
    (hu : usage = .value → ty.isVoid = false) :
    B.Code ctx [] usage.count (do x; settle usage ty) e (usage.leaves ty) := by
  refine Sim.after hx fun a => ?_
  cases usage with
  | value =>
    rw [Ty.count_eq_one (hu rfl)]
    refine Sim.nothing fun κ vs hvs => ?_
    rwa [Ty.leaves_of_not_isVoid (hu rfl)] at hvs
  | discard =>
    cases hv : ty.isVoid with
    | true =>
      simp only [EmitM.settle, hv, not_true_eq_false, and_false, if_false, Ty.count_of_isVoid hv, if_true]
      refine Sim.nothing fun κ vs hvs => ?_
      rwa [Ty.leaves, if_pos hv] at hvs
    | false =>
      simp only [EmitM.settle, hv, Bool.false_eq_true, not_false_eq_true, and_self, if_true]
      rw [Ty.count_eq_one hv]
      refine Sim.shuffle rfl (.emit .pop rfl) rfl fun κ vs _ hvs => ?_
      rw [Ty.leaves_of_not_isVoid hv] at hvs
      obtain ⟨v, rfl, -⟩ := hvs.one
      exact ⟨[], MachineM.shuffles_pop v, rfl, .nil⟩

variable (B) in
/-- The code of a tree simulates the tree's value. -/
def Used (ctx : EmitContext) (usage : Usage) (t : Tree) : Prop :=
  B.Code ctx [] usage.count (t.emission.value usage) (B.meaning t).value (usage.leaves t.ty)

theorem Used.value {t : Tree} (h : B.Used ctx .value t) :
    B.Code ctx [] 1 (Emitted.value (.of Tree.emission t)) (Evaluated.value (.of B.meaning t)) fun a => [(t.ty, a)] :=
  h

theorem Used.discard {t : Tree} (h : B.Used ctx .discard t) :
    B.Code ctx [] 0 (Emitted.discard (.of Tree.emission t)) (Evaluated.value (.of B.meaning t)) fun _ => [] :=
  h

variable (B) in
/-- Values of one type stand for values of another. -/
def Widens (source target : Ty) : Prop :=
  ∀ κ v a, B.value κ source v a → B.value κ target v a

variable (B) in
/-- The zero of a type stands for itself. -/
def HasZero (ty : Ty) : Prop :=
  ∀ κ, B.value κ ty ty.zero ty.zero

/-- The value of a node where one of a type is expected. -/
theorem Used.valueAs {t : Tree} (h : ∀ usage, B.Used ctx usage t) (hw : B.Widens t.ty ty) (hz : B.HasZero ty)
    (hu : usage = .value → ty.isVoid = false) :
    B.Code ctx [] usage.count (Emitted.valueAs (.of Tree.emission t) ty usage)
      (Evaluated.valueAs (.of B.meaning t) ty) (usage.leaves ty) := by
  unfold Emitted.valueAs Evaluated.valueAs
  split
  · -- a void node where a value is expected: the zero
    rename_i hc
    obtain ⟨rfl, hvoid, -⟩ := hc
    refine Sim.bind (Used.discard (h .discard)) fun a => ?_
    refine Sim.shuffle rfl (.emit (.default ty) rfl) rfl fun κ vs _ hvs => ?_
    cases hvs
    refine ⟨[ty.zero], MachineM.shuffles_default ty, rfl, ?_⟩
    rw [Tree.Child.ty_of] at hvoid ⊢
    rw [if_pos hvoid]
    exact .cons (hz κ) .nil
  · rename_i hc
    refine Sim.map (h usage) _ fun κ a vs hvs => ?_
    cases usage with
    | discard => exact hvs
    | value =>
      have hvoid : t.ty.isVoid = false := by
        simpa [hu rfl] using hc
      obtain ⟨v, rfl, hv⟩ := Holds.one hvs
      rw [Tree.Child.ty_of, hvoid]
      exact .cons (hw κ v a hv) .nil

/-- Arguments, the last one on top. -/
theorem Used.values {ts : List Tree} (h : ∀ t ∈ ts, B.Used ctx .value t) : ∀ below : List (Ty × Value),
    B.Code ctx below (ts.length + below.length) (Emit.values (ts.map (.of Tree.emission)))
      (Eval.values (ts.map (.of B.meaning))) fun as => (withTypes (ts.map Tree.ty) as).reverse ++ below := by
  induction ts with
  | nil =>
    intro below
    exact Sim.cast (Sim.nothing fun κ vs hvs => hvs) rfl (Nat.zero_add _).symm
  | cons t ts ih =>
    intro below
    simp only [Eval.values, List.map_cons, List.mapM_cons]
    have ht := Code.above (h t List.mem_cons_self).value below
    refine Code.bind ht ⟨.null, by simp [Nat.add_comm]⟩ fun a _ => ?_
    have hts := ih (fun t' ht' => h t' (List.mem_cons_of_mem t ht')) ((t.ty, a) :: below)
    refine (Sim.map hts (fun as => a :: as) fun κ as vs hvs => ?_).cast rfl ?_
    · simpa [withTypes] using hvs
    · simp only [List.length_cons]
      omega

/-- Code that acts on arguments, above what is on the stack already. -/
theorem Code.bind_values {ts : List Tree} (h : ∀ t ∈ ts, B.Used ctx .value t) {below : List (Ty × Value)} {k : Nat}
    {y : EmitM Unit} {g : List Value → EvalM β} {after : β → List (Ty × Value)}
    (hy : ∀ as, as.length = ts.length →
      B.Code ctx ((withTypes (ts.map Tree.ty) as).reverse ++ below) k y (g as) after) :
    B.Code ctx below k (do Emit.values (ts.map (.of Tree.emission)); y)
      (do let as ← Eval.values (ts.map (.of B.meaning)); g as) after := by
  refine Code.bind (Used.values h below) ⟨List.replicate ts.length .null, by simp⟩ fun as has => hy as ?_
  simpa using has

/-! ## Choices of the generator -/

theorem Sim.ite {c : Prop} [Decidable c] {y : EmitM Unit}
    (hx : c → B.Sim ctx m n Pre x e Post) (hy : ¬ c → B.Sim ctx m n Pre y e Post) :
    B.Sim ctx m n Pre (if c then x else y) e Post := by
  split
  · exact hx ‹_›
  · exact hy ‹_›

theorem Sim.decline (r : Unsupported) :
    B.Sim ctx m n Pre (EmitM.decline r) e Post :=
  .of_refused (.decline r) fun _ _ h => by cases h

/-- Code after the generator has declined. -/
theorem Sim.declined (r : Unsupported) (f : Unit → EmitM Unit) :
    B.Sim ctx m n Pre (EmitM.decline r >>= f) e Post :=
  .of_refused (.of_declines (fun _ => ⟨_, rfl⟩) f) fun _ _ h => by cases h

/-- No code for a computation that changes nothing but what stays out of sight of the machine. -/
theorem Sim.unnoticed (h : ∀ κ handling vars w wE vs, B.world κ w wE → Pre κ vs →
      ∃ a wE', e (B.eval handling) (vars, wE) = (.ok a, vars, wE') ∧ B.world κ w wE' ∧ Post κ a vs) :
    B.Sim ctx m m Pre (pure ()) e Post where
  emits := .of_pure m ()
  runs {b b' D u} ht hfit hpast hrun hlink κ handling f vars w wE vs base hready hstack hlen hpre := by
    cases hrun
    obtain ⟨a, wE', he, hworld, hpost⟩ := h κ handling vars w wE vs hready.world hpre
    rw [he]
    exact .inr ⟨κ, f, w, vs, ⟨⟨le_rfl, hready.corresponds, .refl _ f⟩, .refl, hstack, rfl, hready.depth⟩, hlen,
      hpost, hworld⟩

/-- No code for a computation that only looks something up. -/
theorem Sim.quiet (he : ∀ ec s, ∃ a, e ec s = (.ok a, s))
    (h : ∀ κ a vs, Pre κ vs → Post κ a vs) : B.Sim ctx m m Pre (pure ()) e Post := by
  refine Sim.unnoticed fun κ handling vars w wE vs hworld hpre => ?_
  obtain ⟨a, ha⟩ := he (B.eval handling) (vars, wE)
  exact ⟨a, wE, ha, hworld, h κ a vs hpre⟩

/-- A value that is known where the code is made, if it is wanted. -/
theorem Code.wanted {v : Value} (hx : B.Code ctx [] 1 x (pure v) fun a => [(ty, a)]) :
    B.Code ctx [] usage.count (if usage = .value then x else pure ()) (pure v) (usage.leaves ty) := by
  cases usage with
  | value => exact hx
  | discard => exact Sim.nothing fun κ vs hvs => hvs

/-! ## Statements and blocks -/

/-- The value of the last statement; without statements, the zero of the type. -/
theorem Used.statements (hu : usage = .value → ty.isVoid = false) (hz : B.HasZero ty) : ∀ {ts : List Tree},
    (∀ t ∈ ts, ∀ usage, B.Used ctx usage t) → (∀ t ∈ ts.getLast?, B.Widens t.ty ty) →
    B.Code ctx [] usage.count (Emit.statements ty usage (ts.map (.of Tree.emission)))
      (Eval.statements ty (ts.map (.of B.meaning))) (usage.leaves ty)
  | [], _, _ => by
    cases usage with
    | discard => exact Sim.nothing fun κ vs hvs => hvs
    | value =>
      refine Sim.shuffle rfl (.emit (.default ty) rfl) rfl fun κ vs _ hvs => ?_
      cases hvs
      exact ⟨[ty.zero], MachineM.shuffles_default ty, rfl, .cons (hz κ) .nil⟩
  | [t], h, hw => by
    refine Sim.map (Used.valueAs (h t List.mem_cons_self) (hw t rfl) hz hu) _ fun κ a vs hvs => ?_
    cases usage with
    | discard => exact hvs
    | value =>
      rw [Eval.unlessVoid, hu rfl]
      exact hvs
  | t :: t' :: ts, h, hw => by
    refine Sim.bind (Used.discard (h t List.mem_cons_self .discard)) fun _ => ?_
    have hrest : ∀ c ∈ (t' :: ts).getLast?, B.Widens c.ty ty := fun c hc => hw c (by rwa [List.getLast?_cons_cons])
    exact Used.statements hu hz (fun c hc => h c (List.mem_cons_of_mem t hc)) hrest

/-- A block of statements over new variables. -/
theorem Used.block {vars : List Param} {ts : List Tree} (hu : usage = .value → ty.isVoid = false) (hz : B.HasZero ty)
    (hzeros : ∀ p ∈ vars, B.HasZero p.ty)
    (hx : ∀ scope, EmitM.Emits (ctx.enter scope []) 0 usage.count
      (Emit.statements ty usage (ts.map (.of Tree.emission))))
    (h : ∀ scope : List (Param × Nat), scope.map Prod.fst = vars → ∀ t ∈ ts, ∀ usage,
      B.Used (ctx.enter scope []) usage t)
    (hw : ∀ t ∈ ts.getLast?, B.Widens t.ty ty) :
    B.Code ctx [] usage.count (Emit.block ty vars (ts.map (.of Tree.emission)) usage)
      (EvalM.declaring vars (Eval.statements ty (ts.map (.of B.meaning)))) (usage.leaves ty) := by
  have hnil : ∀ (κ : B.Stage) vs, B.Holds κ [] vs ↔ vs = [] := fun κ vs => List.forall₂_nil_left_iff
  unfold Emit.block
  rw [Usage.unlessVoid_eq hu]
  refine (Sim.block hzeros hx fun scope hscope => ?_).mono (fun κ vs hvs => (hnil κ vs).1 hvs) fun κ a vs hvs => hvs
  exact (Used.statements hu hz (h scope hscope) hw).mono (fun κ vs hvs => (hnil κ vs).2 hvs) fun κ a vs hvs => hvs

/-! ## Choices of the evaluator -/

variable (B) in
/-- Values of a type are true on both sides or on neither. -/
def Tests (ty : Ty) : Prop :=
  ∀ κ v a, B.value κ ty v a → v.isTrue = a.isTrue

theorem Used.cond {test ifTrue ifFalse : Tree} (hu : usage = .value → ty.isVoid = false) (hz : B.HasZero ty)
    (ht : B.Used ctx .value test) (htest : B.Tests test.ty) (ha : ∀ usage, B.Used ctx usage ifTrue)
    (hwa : B.Widens ifTrue.ty ty) (hb : ∀ usage, B.Used ctx usage ifFalse) (hwb : B.Widens ifFalse.ty ty) :
    B.Code ctx [] usage.count
      (Emit.cond ty (.of Tree.emission test) (.of Tree.emission ifTrue) (.of Tree.emission ifFalse) usage)
      (Eval.value ty (.cond (.of B.meaning test) (.of B.meaning ifTrue) (.of B.meaning ifFalse)))
      (usage.leaves ty) := by
  have hside : ∀ {t : Tree}, (∀ usage, B.Used ctx usage t) → B.Widens t.ty ty →
      B.Code ctx [] usage.count (Emitted.valueAs (.of Tree.emission t) ty usage)
        (do return Eval.unlessVoid ty (← Evaluated.valueAs (.of B.meaning t) ty)) (usage.leaves ty) := by
    intro t h hw
    refine Sim.map (Used.valueAs h hw hz hu) _ fun κ a vs hvs => ?_
    cases usage with
    | discard => exact hvs
    | value =>
      rw [Eval.unlessVoid, hu rfl]
      exact hvs
  have htested : B.Sim ctx 0 1 (fun κ => B.Holds κ []) (Emitted.value (.of Tree.emission test))
      (Evaluated.value (.of B.meaning test))
      (Sim.Tested .ifFalse (fun a => !a.isTrue) fun κ _ => B.Holds κ []) := by
    refine ht.value.mono (fun _ _ h => h) fun κ a vs hvs => ?_
    obtain ⟨v, rfl, hv⟩ := Holds.one hvs
    refine ⟨v, [], rfl, ?_, .nil⟩
    simp only [← htest κ v a hv]
    rfl
  unfold Emit.cond
  rw [Usage.unlessVoid_eq hu]
  refine Sim.ite (fun _ => .declined _ _) fun _ => ?_
  refine Sim.fork rfl htested (hside ha hwa).emits (hside hb hwb).emits (fun a hc => ?_) fun a hc => ?_
  · have hc : a.isTrue = true := by simpa using hc
    simp only [hc, if_true]
    exact hside ha hwa
  · have hc : a.isTrue = false := by simpa using hc
    simp only [hc, Bool.false_eq_true, if_false]
    exact hside hb hwb

/-- The value that decides a logical operator. -/
theorem Used.logical {op : LogicalOp} {left right : Tree} (hl : B.Used ctx .value left) (hr : B.Used ctx .value right)
    (htest : B.Tests left.ty) (hwl : B.Widens left.ty ty) (hwr : B.Widens right.ty ty) :
    B.Code ctx [] 1 (Emit.logical op (.of Tree.emission left) (.of Tree.emission right))
      (Eval.logical op (.of B.meaning left) (.of B.meaning right)) fun a => [(ty, a)] := by
  have htested : ∀ kind decides, (∀ v a : Value, v.isTrue = a.isTrue → kind.takes v = decides a) →
      B.Sim ctx 0 2 (fun κ => B.Holds κ []) (do Emitted.value (.of Tree.emission left); emit .dup)
        (Evaluated.value (.of B.meaning left))
        (Sim.Tested kind decides fun κ a => B.Holds κ [(left.ty, a)]) := by
    intro kind decides hdecides
    refine Sim.after hl.value fun a => Sim.shuffle rfl (.emit .dup rfl) rfl fun κ vs _ hvs => ?_
    obtain ⟨v, rfl, hv⟩ := Holds.one hvs
    exact ⟨[v, v], MachineM.shuffles_dup v, rfl, v, [v], rfl, hdecides v a (htest κ v a hv), .cons hv .nil⟩
  have hright : ∀ a, B.Sim ctx 1 1 (fun κ => B.Holds κ [(left.ty, a)])
      (do emit .pop; Emitted.value (.of Tree.emission right)) (Evaluated.value (.of B.meaning right))
      fun κ a => B.Holds κ [(ty, a)] := by
    intro a
    have hpop : B.Sim ctx 1 0 (fun κ => B.Holds κ [(left.ty, a)]) (emit .pop) (pure ()) fun κ _ => B.Holds κ [] := by
      refine Sim.shuffle rfl (.emit .pop rfl) rfl fun κ vs _ hvs => ?_
      obtain ⟨v, rfl, -⟩ := Holds.one hvs
      exact ⟨[], MachineM.shuffles_pop v, rfl, .nil⟩
    refine hpop.before (hr.value.mono (fun _ _ h => h) fun κ a vs hvs => ?_)
    obtain ⟨v, rfl, hv⟩ := Holds.one hvs
    exact .cons (hwr κ v a hv) .nil
  have hcode := fun kind hk decides hdecides => Sim.skip hk (htested kind decides hdecides)
    (hright .null).emits (fun a _ => hright a) fun κ a us _ hus => by
      obtain ⟨v, rfl, hv⟩ := Holds.one hus
      exact .cons (hwl κ v a hv) .nil
  simp only [bind_assoc] at hcode
  unfold Emit.logical Eval.logical
  refine Sim.ite (fun _ => .declined _ _) fun _ => ?_
  cases op with
  | andAlso => exact hcode .ifFalse rfl (fun l => !l.isTrue) fun v a h => congrArg not h
  | orElse => exact hcode .ifTrue rfl Value.isTrue fun v a h => h

/-! ## Variables -/

/-- A variable is looked up, and loaded if it is wanted. -/
theorem Used.parameter {p : Param}
    (hitem : ∀ slot, ctx.Captures p slot → B.Code ctx [] usage.count
      (if usage = .value then loadVar (.closure slot) p.ty else pure ()) (do EvalM.access.read (← EvalM.lookup p))
      (usage.leaves p.ty)) :
    B.Code ctx [] usage.count (do
        let var ← resolve p
        if usage = .value then loadVar var p.ty) (do EvalM.access.read (← EvalM.lookup p)) (usage.leaves p.ty) := by
  have hemits : EmitM.Emits ctx 0 usage.count (do
      let var ← resolve p
      if usage = .value then loadVar var p.ty) := by
    refine (Emit.emits_resolve p).bind fun var => ?_
    cases usage with
    | value => exact Emit.emits_loadVar var p.ty
    | discard => exact .of_pure 0 ()
  refine Sim.lookup hemits fun b x b' hfit hx => ?_
  obtain ⟨rfl, ⟨i, hin⟩ | ⟨slot, rfl, hcaptures⟩⟩ := resolve_inv hx hfit
  · refine ⟨rfl, Sim.own hin ?_⟩
    cases usage with
    | value => exact Code.load hin
    | discard => exact Sim.quiet (fun ec s => ⟨_, rfl⟩) fun κ a vs hvs => hvs
  · exact ⟨rfl, hitem slot hcaptures⟩

/-- A value goes into a variable, and stays on the stack if it is wanted. -/
theorem Code.assignVar {p : Param} {x : FrameVar} {y : EvalVar} {a : Value}
    (hstore : B.Code ctx [(p.ty, a)] 0 (storeVar x) (EvalM.access.write y a) fun _ => []) :
    B.Code ctx [(p.ty, a)] usage.count (do
        if usage = .value then emit .dup
        storeVar x) (do
        EvalM.access.write y a
        return a) (usage.leaves p.ty) := by
  cases usage with
  | discard => exact Sim.map hstore (fun _ => a) fun κ _ vs hvs => hvs
  | value =>
    have hdup : B.Code ctx [(p.ty, a)] 2 (emit .dup) (pure ()) fun _ => [(p.ty, a), (p.ty, a)] := by
      refine Sim.shuffle rfl (.emit .dup rfl) rfl fun κ vs _ hvs => ?_
      obtain ⟨v, rfl, hv⟩ := Holds.one hvs
      exact ⟨[v, v], MachineM.shuffles_dup v, rfl, .cons hv (.cons hv .nil)⟩
    exact Sim.before hdup (Sim.map (Code.above hstore [(p.ty, a)]) (fun _ => a) fun κ _ vs hvs => hvs)

/-- The value of a computation goes into a variable, which is looked up first. -/
theorem Code.assignParameter {p : Param} {source : EmitM Unit} {e : EvalM Value}
    (hs : B.Code ctx [] 1 source e fun a => [(p.ty, a)])
    (hitem : ∀ slot, ctx.Captures p slot → B.Code ctx [] usage.count (do
        source
        if usage = .value then emit .dup
        storeVar (.closure slot)) (do
        let var ← EvalM.lookup p
        let v ← e
        EvalM.access.write var v
        return v) (usage.leaves p.ty)) :
    B.Code ctx [] usage.count (do
        let var ← resolve p
        source
        if usage = .value then emit .dup
        storeVar var) (do
        let var ← EvalM.lookup p
        let v ← e
        EvalM.access.write var v
        return v) (usage.leaves p.ty) := by
  have hemits : EmitM.Emits ctx 0 usage.count (do
      let var ← resolve p
      source
      if usage = .value then emit .dup
      storeVar var) := by
    refine (Emit.emits_resolve p).bind fun var => hs.emits.bind fun _ => ?_
    cases usage with
    | value => exact (EmitM.Emits.emit .dup rfl).bind fun _ => (Emit.emits_storeVar var).add 1
    | discard => exact Emit.emits_storeVar var
  refine Sim.lookup hemits fun b x b' hfit hx => ?_
  obtain ⟨rfl, ⟨i, hin⟩ | ⟨slot, rfl, hcaptures⟩⟩ := resolve_inv hx hfit
  · exact ⟨rfl, Sim.own hin (Code.bind_one hs fun a => Code.assignVar (Code.store hin a))⟩
  · exact ⟨rfl, hitem slot hcaptures⟩

end Bridge

end ExprCompiler
