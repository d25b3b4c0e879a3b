/-
Values on the stack. An instruction takes values off the stack, acts on the world and leaves values;
code leaves values that stand for those of the evaluator, one above the other. Code for one value after
the other runs above what is there already.
-/
import ExprCompiler.Proofs.Simulation.Control

namespace ExprCompiler

namespace MachineM

variable {α : Type} {fc : FrameContext} {f : Frame} {w : World} {base : List Value}

/-! ## Instructions -/

@[simp] theorem push_apply (v : Value) (s : Frame × World) :
    push v fc s = (.ok (), { s.1 with stack := v :: s.1.stack }, s.2) := rfl

theorem pop_apply {v : Value} (h : f.stack = v :: base) : pop fc (f, w) = (.ok v, { f with stack := base }, w) := by
  rw [pop, Act.bind_ok (Act.changeOwn_apply popped fc (f, w))]
  simp only [popped, h]
  rfl

theorem popMany_apply {n : Nat} {vs : List Value} (h : f.stack = vs ++ base) (hlen : vs.length = n) :
    popMany n fc (f, w) = (.ok vs.reverse, { f with stack := base }, w) := by
  subst hlen
  rw [popMany, Act.bind_ok (Act.own_apply fc (f, w))]
  simp only [h, List.length_append]
  rw [if_neg (by omega), Act.bind_ok (Act.setOwn_apply _ fc (f, w)), Act.pure_apply]
  simp

/-- The frame after an act on the world whose operands were above `base`. -/
def resumed (f : Frame) (base : List Value) (left : α → List Value) :
    Except Stop α × World → Except Stop Unit × Frame × World
  | (.ok a, w) => (.ok (), { f with stack := left a ++ base }, w)
  | (.error stop, w) => (.error stop, { f with stack := base }, w)

/-- An instruction takes values off the stack, acts on the world and leaves values. -/
def Performs (fc : FrameContext) (i : Instr) (vs : List Value) (op : World → Except Stop α × World)
    (left : α → List Value) : Prop :=
  ∀ f w base, f.stack = vs ++ base → effect i fc (f, w) = resumed f base left (op w)

/-- What an instruction comes to may be seen in another way, if it leaves the same. -/
theorem Performs.map {β : Type} {i : Instr} {vs : List Value} {op : World → Except Stop α × World}
    {left : α → List Value} {left' : β → List Value} (h : Performs fc i vs op left) (g : α → β)
    (hleft : ∀ a, left' (g a) = left a) : Performs fc i vs (fun w => ((op w).1.map g, (op w).2)) left' := by
  intro f w base hst
  rw [h f w base hst]
  rcases hop : op w with ⟨stop | a, w'⟩
  · simp only [hop]
    rfl
  · simp only [hop, resumed, Except.map, hleft]

/-- An instruction only changes the values on top of the stack. -/
abbrev Shuffles (fc : FrameContext) (i : Instr) (vs rs : List Value) : Prop :=
  Performs fc i vs (fun w => (.ok (), w)) fun _ => rs

theorem shuffles_const (v : Value) : Shuffles fc (.const v) [] [v] := by
  intro f w base hst
  rw [effect, push_apply, hst]
  rfl

theorem shuffles_default (ty : Ty) : Shuffles fc (.default ty) [] [ty.zero] := by
  intro f w base hst
  rw [effect, push_apply, hst]
  rfl

theorem shuffles_dup (v : Value) : Shuffles fc .dup [v] [v, v] := by
  intro f w base hst
  have htop : top fc (f, w) = (.ok v, f, w) := by
    rw [top, Act.bind_ok (Act.own_apply fc (f, w))]
    simp only [hst]
    rfl
  rw [effect, Act.bind_ok htop, push_apply, hst]
  rfl

theorem shuffles_pop (v : Value) : Shuffles fc .pop [v] [] := by
  intro f w base hst
  rw [effect, Act.bind_ok (pop_apply hst), Act.pure_apply]
  rfl

/-- A value made from the world alone goes onto the stack. -/
theorem bind_push_apply {x : MachineM Value} {op : World → Except Stop Value × World} (hx : x.OnWorld fc op) :
    (x >>= push) fc (f, w) = resumed f f.stack (fun r => [r]) (op w) := by
  rw [Act.bind_apply, hx]
  rcases op w with ⟨stop | r, w'⟩ <;> rfl

/-- An operation on the topmost value. -/
theorem performs_unary {i : Instr} {g : Value → Except Cause Value} (hi : effect i = unary g) (v : Value) :
    Performs fc i [v] (fun w => w.settled (g v)) fun r => [r] := by
  intro f w base hst
  have hst : f.stack = v :: base := hst
  rw [hi, unary, Act.bind_ok (pop_apply hst)]
  exact bind_push_apply (Act.onWorld_settle (g v))

/-- An operation on the two topmost values. -/
theorem performs_binary {i : Instr} {g : Value → Value → Except Cause Value} (hi : effect i = binary g) (l r : Value) :
    Performs fc i [r, l] (fun w => w.settled (g l r)) fun r => [r] := by
  intro f w base hst
  have hst : f.stack = r :: l :: base := hst
  rw [hi, binary, Act.bind_ok (pop_apply hst), Act.bind_ok (pop_apply rfl)]
  exact bind_push_apply (Act.onWorld_settle (g l r))

end MachineM

namespace Bridge

variable {B : Bridge} {ctx : EmitContext} {α β γ : Type} {m n k : Nat} {Pre : B.Stage → List Value → Prop}
  {x y : EmitM Unit} {e : EvalM α} {Post : B.Stage → α → List Value → Prop}

variable (B) in
/-- An act on the world answers to a computation of the evaluator that leaves its variables alone. -/
def Acts (n : Nat) (κ : B.Stage) (vars : Activation) (Post : B.Stage → α → List Value → Prop) (left : γ → List Value)
    (r : Except Stop γ × World) : Except Stop α × Activation × World → Prop
  | (.ok a, vars', wE') => vars' = vars ∧ ∃ κ' c w', κ ≤ κ' ∧ r = (.ok c, w') ∧ (left c).length = n ∧
      Post κ' a (left c) ∧ B.world κ' w' wE'
  | (.error stop, vars', wE') => vars' = vars ∧ ∃ κ' stop' w', κ ≤ κ' ∧ r = (.error stop', w') ∧
      B.ends κ' stop' w' stop wE'

theorem Sim.instr {i : Instr} (h : B.Sim ctx m n Pre ([i].forM EmitM.emit) e Post) :
    B.Sim ctx m n Pre (EmitM.emit i) e Post := by
  have heq : [i].forM EmitM.emit = EmitM.emit i := bind_pure_unit
  rwa [heq] at h

/-- An instruction that acts on the world with values from the stack. -/
theorem Sim.perform {i : Instr} (hplain : i.isPlain = true) (he : EmitM.Emits ctx m n (EmitM.emit i))
    (hflow : i.endsFlow = false ∨ ∀ ec s a t, e ec s ≠ (.ok a, t))
    (h : ∀ κ vs, vs.length = m → Pre κ vs → ∃ (γ : Type) (op : World → Except Stop γ × World) (left : γ → List Value),
      MachineM.Performs B.machine i vs op left ∧ ∀ handling vars w wE, B.world κ w wE →
        B.Excused (fun stop => (op w).1 = .error stop) (e (B.eval handling) (vars, wE)) ∨
          B.Acts n κ vars Post left (op w) (e (B.eval handling) (vars, wE))) :
    B.Sim ctx m n Pre (EmitM.emit i) e Post := by
  have hcode : [i].forM EmitM.emit = EmitM.emit i := bind_pure_unit
  have heffects : CodeUnit.effects [i] = MachineM.effect i := bind_pure_unit
  refine Sim.instr (Sim.straight ?_ ?_ ?_ ?_)
  · rw [hcode]
    exact he
  · simp only [List.mem_singleton, forall_eq]
    rintro rfl
    cases hplain
  · simpa using hflow
  · intro b u κ handling f vars w wE vs base _ hready hstack hlen hpre
    obtain ⟨γ, op, left, hperf, hacts⟩ := h κ vs hlen hpre
    rw [heffects, hperf f w base hstack]
    rcases hacts handling vars w wE hready.world with hexc | hacts
    · refine .inl (hexc.mono fun stop hstop => ?_)
      rcases hop : op w with ⟨stop | c, w'⟩ <;> rw [hop] at hstop <;> cases hstop
      rfl
    · right
      rcases hr : e (B.eval handling) (vars, wE) with ⟨stop | a, vars', wE'⟩ <;> rw [hr] at hacts
      · obtain ⟨rfl, κ', stop', w', hκ, hop, hends⟩ := hacts
        rw [hop]
        exact ⟨κ', _, w', stop', rfl, hready.corresponds.after hκ rfl rfl, List.suffix_rfl, List.suffix_rfl, hends⟩
      · obtain ⟨rfl, κ', c, w', hκ, hop, hlen', hpost, hworld⟩ := hacts
        rw [hop]
        exact ⟨κ', _, w', left c, rfl, hready.corresponds.after hκ rfl rfl, rfl, rfl, hlen', hpost, hworld⟩

/-- An instruction that only changes the values on top of the stack. -/
theorem Sim.shuffle {i : Instr} {a : α} (hplain : i.isPlain = true) (he : EmitM.Emits ctx m n (EmitM.emit i))
    (hflow : i.endsFlow = false) (h : ∀ κ vs, vs.length = m → Pre κ vs →
      ∃ rs, MachineM.Shuffles B.machine i vs rs ∧ rs.length = n ∧ Post κ a rs) :
    B.Sim ctx m n Pre (EmitM.emit i) (pure a) Post := by
  refine Sim.perform hplain he (.inl hflow) fun κ vs hlen hpre => ?_
  obtain ⟨rs, hperf, hlen', hpost⟩ := h κ vs hlen hpre
  exact ⟨Unit, _, _, hperf, fun handling vars w wE hw => .inr ⟨rfl, κ, (), w, le_rfl, rfl, hlen', hpost, hw⟩⟩

/-- A step of the machine alone, after a computation. -/
theorem Sim.after [Nonempty α] {Mid : B.Stage → α → List Value → Prop} (hx : B.Sim ctx m n Pre x e Mid)
    (hy : ∀ a, B.Sim ctx n k (fun κ => Mid κ a) y (pure a) Post) : B.Sim ctx m k Pre (do x; y) e Post :=
  (hx.bind hy).of_eval fun handling s => by rw [bind_pure]

/-- A step of the machine alone, before a computation. -/
theorem Sim.before {Mid : B.Stage → Unit → List Value → Prop} (hx : B.Sim ctx m n Pre x (pure ()) Mid)
    (hy : B.Sim ctx n k (fun κ => Mid κ ()) y e Post) : B.Sim ctx m k Pre (do x; y) e Post :=
  (hx.bind fun _ => hy).of_eval fun handling s => by rw [pure_bind]

/-- A generator that only looks something up, before code. -/
theorem Sim.lookup {r : EmitM γ} {f : γ → EmitM Unit} (he : EmitM.Emits ctx m n (r >>= f))
    (h : ∀ b c b', ctx.Fits b → r ctx b = .ok (c, b') → b' = b ∧ B.Sim ctx m n Pre (f c) e Post) :
    B.Sim ctx m n Pre (r >>= f) e Post := by
  refine ⟨he, fun {b b' D u} ht hfit hpast hrun => ?_⟩
  obtain ⟨c, b₁, hr, hf⟩ := EmitM.bind_eq_ok hrun
  obtain ⟨rfl, hsim⟩ := h b c b₁ hfit hr
  exact hsim.runs ht hfit hpast hf

theorem Sim.cast {m' n' : Nat} (h : B.Sim ctx m n Pre x e Post) (hm : m = m') (hn : n = n') :
    B.Sim ctx m' n' Pre x e Post := by
  subst hm hn
  exact h

/-! ## Values for values -/

variable (B) in
/-- Values on the stack stand for values of the evaluator, each with its type, the top first. -/
def Holds (κ : B.Stage) (xs : List (Ty × Value)) (vs : List Value) : Prop :=
  List.Forall₂ (fun x v => B.value κ x.1 v x.2) xs vs

theorem Holds.length {κ : B.Stage} {xs : List (Ty × Value)} {vs : List Value} (h : B.Holds κ xs vs) :
    vs.length = xs.length :=
  (List.Forall₂.length_eq h).symm

theorem Holds.mono {κ κ' : B.Stage} {xs : List (Ty × Value)} {vs : List Value} (h : B.Holds κ xs vs) (hκ : κ ≤ κ') :
    B.Holds κ' xs vs :=
  List.Forall₂.imp (fun _ _ => B.value_mono hκ) h

theorem holds_append {κ : B.Stage} {xs ys : List (Ty × Value)} {vs : List Value} :
    B.Holds κ (xs ++ ys) vs ↔ ∃ us ws, vs = us ++ ws ∧ B.Holds κ xs us ∧ B.Holds κ ys ws := by
  constructor
  · intro h
    induction xs generalizing vs with
    | nil => exact ⟨[], vs, rfl, .nil, h⟩
    | cons x xs ih =>
      rcases h with _ | ⟨hx, h⟩
      obtain ⟨us, ws, rfl, hxs, hys⟩ := ih h
      exact ⟨_ :: us, ws, rfl, .cons hx hxs, hys⟩
  · rintro ⟨us, ws, rfl, hxs, hys⟩
    exact List.rel_append hxs hys

theorem Holds.one {κ : B.Stage} {ty : Ty} {a : Value} {vs : List Value} (h : B.Holds κ [(ty, a)] vs) :
    ∃ v, vs = [v] ∧ B.value κ ty v a := by
  rcases h with _ | ⟨hv, h⟩
  cases h
  exact ⟨_, rfl, hv⟩

variable (B) in
/-- Code that takes values for `before` and leaves `n` values for what a computation gives. -/
abbrev Code (ctx : EmitContext) (before : List (Ty × Value)) (n : Nat) (x : EmitM Unit) (e : EvalM α)
    (after : α → List (Ty × Value)) : Prop :=
  B.Sim ctx before.length n (fun κ => B.Holds κ before) x e fun κ a => B.Holds κ (after a)

namespace Code

variable {before : List (Ty × Value)} {mid : α → List (Ty × Value)} {g : α → EvalM β} {after : β → List (Ty × Value)}

/-- Code above values that stay where they are. -/
theorem above (h : B.Code ctx before n x e mid) (below : List (Ty × Value)) :
    B.Code ctx (before ++ below) (n + below.length) x e fun a => mid a ++ below := by
  have hframe := Sim.frame (j := below.length) h (fun κ => B.Holds κ below) fun hκ hb => hb.mono hκ
  refine (hframe.mono (fun κ vs hvs => ?_) fun κ a vs hvs => ?_).cast (List.length_append).symm rfl
  · obtain ⟨us, ws, rfl, hus, hws⟩ := holds_append.1 hvs
    exact ⟨us, ws, rfl, hws.length, hus, hws⟩
  · obtain ⟨us, ws, rfl, -, hus, hws⟩ := hvs
    exact holds_append.2 ⟨us, ws, rfl, hus, hws⟩

/-- Code after code. The number of values in between is one that the computation can give. -/
theorem bind (hx : B.Code ctx before n x e mid) (hex : ∃ a, (mid a).length = n)
    (hy : ∀ a, (mid a).length = n → B.Code ctx (mid a) k y (g a) after) :
    B.Code ctx before k (do x; y) (e >>= g) after := by
  obtain ⟨a₀, h₀⟩ := hex
  have hemits : EmitM.Emits ctx n k y := by
    have := (hy a₀ h₀).emits
    rwa [h₀] at this
  have : Nonempty α := ⟨a₀⟩
  refine Sim.bind hx fun a => ?_
  by_cases ha : (mid a).length = n
  · exact (hy a ha).cast ha rfl
  · refine ⟨hemits, fun _ _ _ _ _ _ _ _ _ _ _ _ _ _ _ hlen hvs => ?_⟩
    exact absurd (hvs.length.symm.trans hlen) ha

/-- Code that acts on one value. -/
theorem bind_one {ty : Ty} {e : EvalM Value} {g : Value → EvalM β} (hx : B.Code ctx before 1 x e fun a => [(ty, a)])
    (hy : ∀ a, B.Code ctx [(ty, a)] k y (g a) after) : B.Code ctx before k (do x; y) (e >>= g) after :=
  bind hx ⟨.null, rfl⟩ fun a _ => hy a

/-- Code that acts on two values, of which the second is above the first. -/
theorem bind_two {z : EmitM Unit} {ty ty' : Ty} {e e' : EvalM Value} {g : Value → Value → EvalM β}
    (hx : B.Code ctx before 1 x e fun a => [(ty, a)]) (hy : B.Code ctx [] 1 y e' fun a => [(ty', a)])
    (hz : ∀ a a', B.Code ctx [(ty', a'), (ty, a)] k z (g a a') after) :
    B.Code ctx before k (do x; y; z) (do let a ← e; let a' ← e'; g a a') after :=
  bind_one hx fun a => bind (above hy [(ty, a)]) ⟨.null, rfl⟩ fun a' _ => hz a a'

end Code

end Bridge

end ExprCompiler
