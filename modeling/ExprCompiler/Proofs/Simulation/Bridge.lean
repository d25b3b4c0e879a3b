/-
Simulation of the evaluator by emitted code. A bridge says how what the machine holds stands for what
the evaluator holds: values, worlds and exceptions, as they are related at a stage of the run. Code
simulates a computation of the evaluator if, from related states, it runs down to its end where the
computation has a value, with values for it on the stack, and stops where the computation stops. The
rules here are the same for all bridges; what single instructions do is left to each of them.
-/
import ExprCompiler.Proofs.Code.Edits
import ExprCompiler.Proofs.Eval
import ExprCompiler.Proofs.Simulation.Steps
import Mathlib.Order.CompletePartialOrder

namespace ExprCompiler

/-! ## Variables -/

/-- The value of a variable in a frame, except for items of the closure. -/
def Frame.var? (f : Frame) : FrameVar → Option Value
  | .arg i => f.args[i]?
  | .localVar i => f.locals[i]?
  | .closure _ => none

/-- A frame with another value of a variable. -/
def Frame.setVar (f : Frame) : FrameVar → Value → Frame
  | .arg i, v => { f with args := f.args.setIfInBounds i v }
  | .localVar i, v => { f with locals := f.locals.setIfInBounds i v }
  | .closure _, _ => f

/-- The variables that a node sees, outermost first, with where they are kept. -/
def EmitContext.slots (ctx : EmitContext) : List (Param × FrameVar) :=
  ctx.params.zipIdx.map (fun (p, i) => (p, .arg (if ctx.layout.isSome then i + 1 else i))) ++
    ctx.scopes.reverse.flatten.map fun (p, i) => (p, .localVar i)

/-- The variables of a node are kept apart from each other and from the exceptions being handled, in
locals that the code has. -/
structure EmitContext.Fits (ctx : EmitContext) (b : Builder) : Prop where
  apart : (ctx.slots.map Prod.snd).Nodup
  locals : ∀ p i, (p, .localVar i) ∈ ctx.slots → i < b.locals.size
  hidden : ∀ i ∈ ctx.catchLocals, i < b.locals.size ∧ ∀ p, (p, .localVar i) ∉ ctx.slots
  params : ctx.params.Nodup
  few : ctx.params.length < Nat.pow 2 16

/-- All protected regions so far lie behind. -/
def Builder.Past (b : Builder) : Prop :=
  ∀ e ∈ b.handlers, e.stop ≤ b.pc

/-- A frame has kept what is no variable of the node, as far as the first `n` locals go. -/
structure Frame.Keeps (ctx : EmitContext) (n : Nat) (f f' : Frame) : Prop where
  vars : ∀ x, (∀ p, (p, x) ∉ ctx.slots) → (∀ i, x = .localVar i → i < n) → f'.var? x = f.var? x
  locals : f'.locals.size = f.locals.size

/-! ## Bridges -/

/-- How a machine stands for an evaluator. -/
structure Bridge where
  /-- What both sides have made so far. -/
  Stage : Type
  [order : Preorder Stage]
  /-- The values of a type, on the machine and in the evaluator. -/
  value : Stage → Ty → Value → Value → Prop
  value_mono : ∀ {κ κ' : Stage} {ty v v'}, κ ≤ κ' → value κ ty v v' → value κ' ty v v'
  world : Stage → World → World → Prop
  /-- The exceptions that a catch body may handle. -/
  thrown : Value → Prop
  /-- How the two sides stop. -/
  ends : Stage → Stop → World → Stop → World → Prop
  machine : FrameContext
  /-- The evaluator's surroundings under the exceptions being handled. -/
  eval : List Value → EvalContext
  /-- The meaning of the trees that code is emitted for. -/
  meaning : Tree → Meaning
  /-- Nothing is said where the machine stops in this way. -/
  machineExcused : Stop → Prop
  /-- Nothing is said where the evaluator stops in this way. -/
  evalExcused : Stop → Prop

attribute [instance] Bridge.order

namespace Bridge

variable (B : Bridge)

/-- The variables and the handled exceptions of an activation are in the frame. -/
structure Corresponds (ctx : EmitContext) (κ : B.Stage) (handling : List Value) (f : Frame) (vars : Activation) :
    Prop where
  vars : List.Forall₂ (fun slot x => x.1 = slot.1 ∧ ∃ v, f.var? slot.2 = some v ∧ B.value κ slot.1.ty v x.2)
    ctx.slots vars.toList
  handling : List.Forall₂ (fun i v => f.locals[i]? = some v ∧ B.thrown v) ctx.catchLocals handling

/-- The machine stands before the next instruction with a state that corresponds to the evaluator's. -/
structure Ready (ctx : EmitContext) (u : CodeUnit) (b : Builder) (κ : B.Stage) (handling : List Value) (f : Frame)
    (vars : Activation) (w wE : World) : Prop where
  depth : b.depth = some f.stack.length
  nesting : f.pending.length = b.finallyNesting
  locals : f.locals.size = u.locals.size
  corresponds : B.Corresponds ctx κ handling f vars
  world : B.world κ w wE

/-- A later state still corresponds to the evaluator's, and has kept all else. -/
structure After (ctx : EmitContext) (n : Nat) (κ κ' : B.Stage) (handling : List Value) (f f' : Frame)
    (vars : Activation) : Prop where
  stage : κ ≤ κ'
  corresponds : B.Corresponds ctx κ' handling f' vars
  keeps : f.Keeps ctx n f'

/-- One side has stopped in a way of which nothing is said. -/
def Excused {α : Type} (machine : Stop → Prop) (r : Except Stop α × Activation × World) : Prop :=
  (∃ stop, B.evalExcused stop ∧ r.1 = .error stop) ∨ ∃ stop, B.machineExcused stop ∧ machine stop

/-- Code has run down to its end and left values on the stack. -/
structure Arrives (ctx : EmitContext) (u : CodeUnit) (b b' : Builder) (κ κ' : B.Stage) (handling : List Value)
    (f f' : Frame) (w w' : World) (vars' : Activation) (vs base : List Value) : Prop where
  after : B.After ctx b.locals.size κ κ' handling f f' vars'
  advances : u.Advances B.machine ⟨b.pc, f, w⟩ ⟨b'.pc, f', w'⟩
  stack : f'.stack = vs ++ base
  pending : f'.pending = f.pending
  depth : b'.depth = some f'.stack.length

/-- An instruction of the code has stopped, and none of the handlers so far takes the exception. -/
structure Fails (ctx : EmitContext) (u : CodeUnit) (b b' : Builder) (κ κ' : B.Stage) (handling : List Value)
    (f f' : Frame) (w w' : World) (vars' : Activation) (base : List Value) (pc : Nat) (stop : Stop) : Prop where
  after : B.After ctx b.locals.size κ κ' handling f f' vars'
  stops : u.Stops B.machine ⟨b.pc, f, w⟩ pc stop f' w'
  inside : pc < b'.pc
  stack : base <:+ f'.stack
  pending : f.pending <:+ f'.pending
  unhandled : ∀ v, stop = .thrown v → ∀ e ∈ b'.handlers, e.accepts pc v = false

/-- Code ends as a computation of the evaluator does, with `n` values for its result. -/
def Ends {α : Type} (ctx : EmitContext) (n : Nat) (u : CodeUnit) (b b' : Builder) (κ : B.Stage) (handling : List Value)
    (f : Frame) (w : World) (base : List Value) (Post : B.Stage → α → List Value → Prop) :
    Except Stop α × Activation × World → Prop
  | (.ok a, vars', wE') => ∃ κ' f' w' vs, B.Arrives ctx u b b' κ κ' handling f f' w w' vars' vs base ∧
      vs.length = n ∧ Post κ' a vs ∧ B.world κ' w' wE'
  | (.error stop, vars', wE') => ∃ κ' f' w' pc stop', B.Fails ctx u b b' κ κ' handling f f' w w' vars' base pc stop' ∧
      B.ends κ' stop' w' stop wE'

/-- An instruction of the code stops, in whatever state, and none of the handlers so far takes the exception. -/
def Quits (u : CodeUnit) (b b' : Builder) (f : Frame) (w : World) (stop : Stop) : Prop :=
  ∃ pc f' w', u.Stops B.machine ⟨b.pc, f, w⟩ pc stop f' w' ∧ pc < b'.pc ∧
    ∀ v, stop = .thrown v → ∀ e ∈ b'.handlers, e.accepts pc v = false

/-- Code comes to what a computation of the evaluator comes to, where something is said of it. -/
def Outcome {α : Type} (ctx : EmitContext) (n : Nat) (u : CodeUnit) (b b' : Builder) (κ : B.Stage)
    (handling : List Value) (f : Frame) (w : World) (base : List Value) (Post : B.Stage → α → List Value → Prop)
    (r : Except Stop α × Activation × World) : Prop :=
  B.Excused (B.Quits u b b' f w) r ∨ B.Ends ctx n u b b' κ handling f w base Post r

/-- Code simulates a computation of the evaluator. It takes values with `Pre` from the stack and leaves
values with `Post`. -/
structure Sim {α : Type} (ctx : EmitContext) (m n : Nat) (Pre : B.Stage → List Value → Prop) (x : EmitM Unit)
    (e : EvalM α) (Post : B.Stage → α → List Value → Prop) : Prop where
  emits : EmitM.Emits ctx m n x
  runs : ∀ {b b' : Builder} {D : Nat → Option Nat} {u : CodeUnit}, b.Tracks D → ctx.Fits b → b.Past →
    x ctx b = .ok ((), b') → b'.Links u → ∀ {κ : B.Stage} {handling : List Value} {f : Frame} {vars : Activation}
    {w wE : World} {vs base : List Value}, B.Ready ctx u b κ handling f vars w wE → f.stack = vs ++ base →
    vs.length = m → Pre κ vs → B.Outcome ctx n u b b' κ handling f w base Post (e (B.eval handling) (vars, wE))

end Bridge

/-! ## Growth -/

variable {ctx : EmitContext} {b b' : Builder} {D D' : Nat → Option Nat} {ls : List Nat}

theorem EmitContext.Fits.mono (h : ctx.Fits b) (hg : Builder.Grows ls b D b' D') : ctx.Fits b' := by
  have hle : b.locals.size ≤ b'.locals.size := by simpa using hg.locals.length_le
  exact ⟨h.apart, fun p i hi => (h.locals p i hi).trans_le hle, fun i hi => ⟨(h.hidden i hi).1.trans_le hle,
    (h.hidden i hi).2⟩, h.params, h.few⟩

theorem Builder.Past.mono (h : b.Past) (hg : Builder.Grows ls b D b' D') : b'.Past := by
  intro e he
  rcases hg.regions e he with he | ⟨-, hstop⟩
  · exact (h e he).trans hg.pc_le
  · exact hstop

theorem Handler.accepts_of_not_covers {e : Handler} {pc : Nat} (h : ¬ e.Covers pc) (v : Value) :
    e.accepts pc v = false := by
  simp [accepts, h]

theorem Frame.Keeps.refl (n : Nat) (f : Frame) : f.Keeps ctx n f := ⟨fun _ _ _ => rfl, rfl⟩

theorem Frame.Keeps.trans {n n' : Nat} {f f' f'' : Frame} (h : f.Keeps ctx n f') (h' : f'.Keeps ctx n' f'')
    (hle : n ≤ n') : f.Keeps ctx n f'' where
  vars x hx hn := (h'.vars x hx fun i hi => (hn i hi).trans_le hle).trans (h.vars x hx hn)
  locals := h'.locals.trans h.locals

theorem EmitM.Yields.result {α : Type} {x : EmitM α} {Q : α → Builder → Prop} {a : α} (h : EmitM.Yields ctx b x Q)
    (hx : x ctx b = .ok (a, b')) : Q a b' := by
  unfold EmitM.Yields at h
  rw [hx] at h
  exact h

namespace Bridge

variable {B : Bridge} {α β : Type} {m n k : Nat} {Pre : B.Stage → List Value → Prop} {x y : EmitM Unit} {e : EvalM α}
  {Post : B.Stage → α → List Value → Prop}

theorem After.trans {n n' : Nat} {κ κ₁ κ' : B.Stage} {handling : List Value} {f f₁ f' : Frame}
    {vars₁ vars' : Activation}
    (h : B.After ctx n κ κ₁ handling f f₁ vars₁) (h' : B.After ctx n' κ₁ κ' handling f₁ f' vars') (hle : n ≤ n') :
    B.After ctx n κ κ' handling f f' vars' :=
  ⟨h.stage.trans h'.stage, h'.corresponds, h.keeps.trans h'.keeps hle⟩

section

variable {u : CodeUnit} {b₁ : Builder} {κ κ₁ κ' : B.Stage} {handling : List Value} {f f₁ f' : Frame} {w w₁ w' : World}
  {vars₁ vars' : Activation} {vs₁ vs base : List Value} {pc : Nat} {stop : Stop}

/-- What is written later does not handle what is thrown before. -/
theorem unhandled_mono {v : Value} (hg : Builder.Grows ls b₁ D b' D') (hpc : pc < b₁.pc)
    (h : ∀ e ∈ b₁.handlers, e.accepts pc v = false) : ∀ e ∈ b'.handlers, e.accepts pc v = false := by
  intro e he
  rcases hg.regions e he with he | ⟨hstart, -⟩
  · exact h e he
  · exact Handler.accepts_of_not_covers (fun hcov => by have := hcov.1; omega) v

/-- A failure is one of all that is written after it, too. -/
theorem Fails.extend (h : B.Fails ctx u b b₁ κ κ' handling f f' w w' vars' base pc stop)
    (hg : Builder.Grows ls b₁ D b' D') : B.Fails ctx u b b' κ κ' handling f f' w w' vars' base pc stop :=
  { h with
    inside := h.inside.trans_le hg.pc_le
    unhandled := fun v hv => unhandled_mono hg h.inside (h.unhandled v hv) }

theorem Quits.extend (h : B.Quits u b b₁ f w stop) (hg : Builder.Grows ls b₁ D b' D') : B.Quits u b b' f w stop := by
  obtain ⟨pc, f', w', hstops, hpc, hun⟩ := h
  exact ⟨pc, f', w', hstops, hpc.trans_le hg.pc_le, fun v hv => unhandled_mono hg hpc (hun v hv)⟩

theorem Quits.of_advances (h : B.Quits u b₁ b' f₁ w₁ stop)
    (hadv : u.Advances B.machine ⟨b.pc, f, w⟩ ⟨b₁.pc, f₁, w₁⟩) : B.Quits u b b' f w stop := by
  obtain ⟨pc, f', w', hstops, hrest⟩ := h
  exact ⟨pc, f', w', hstops.of_advances hadv, hrest⟩

theorem Excused.mono {α : Type} {P Q : Stop → Prop} {r : Except Stop α × Activation × World} (h : B.Excused P r)
    (hPQ : ∀ stop, P stop → Q stop) : B.Excused Q r :=
  h.imp_right fun ⟨stop, hM, hP⟩ => ⟨stop, hM, hPQ stop hP⟩

/-- An evaluator that stops early stops all that comes after. -/
theorem Excused.error {α β : Type} {P : Stop → Prop} {s s' : Activation × World}
    (h : B.Excused (α := α) P (.error stop, s)) : B.Excused (α := β) P (.error stop, s') := by
  refine h.imp_left fun ⟨stop', hE, he⟩ => ⟨stop', hE, ?_⟩
  cases he
  rfl

/-- Where the evaluator has a value, the machine is excused. -/
theorem Excused.machine {α β : Type} {P : Stop → Prop} {a : α} {s : Activation × World} (h : B.Excused P (.ok a, s))
    (r : Except Stop β × Activation × World) : B.Excused P r := by
  rcases h with ⟨stop, -, he⟩ | hM
  · cases he
  · exact .inr hM

/-- The part of a run that comes before. -/
structure Arrived (B : Bridge) (ctx : EmitContext) (u : CodeUnit) (b b₁ : Builder) (κ κ₁ : B.Stage)
    (handling : List Value) (f f₁ : Frame) (w w₁ : World) (vars₁ : Activation) : Prop where
  after : B.After ctx b.locals.size κ κ₁ handling f f₁ vars₁
  advances : u.Advances B.machine ⟨b.pc, f, w⟩ ⟨b₁.pc, f₁, w₁⟩
  pending : f₁.pending = f.pending
  locals : b.locals.size ≤ b₁.locals.size

theorem Fails.after_run (h : B.Fails ctx u b₁ b' κ₁ κ' handling f₁ f' w₁ w' vars' base pc stop)
    (h₁ : Arrived B ctx u b b₁ κ κ₁ handling f f₁ w w₁ vars₁) :
    B.Fails ctx u b b' κ κ' handling f f' w w' vars' base pc stop where
  after := h₁.after.trans h.after h₁.locals
  stops := h.stops.of_advances h₁.advances
  inside := h.inside
  stack := h.stack
  pending := by rw [← h₁.pending]; exact h.pending
  unhandled := h.unhandled

theorem Arrives.after_run (h : B.Arrives ctx u b₁ b' κ₁ κ' handling f₁ f' w₁ w' vars' vs base)
    (h₁ : Arrived B ctx u b b₁ κ κ₁ handling f f₁ w w₁ vars₁) :
    B.Arrives ctx u b b' κ κ' handling f f' w w' vars' vs base where
  after := h₁.after.trans h.after h₁.locals
  advances := h₁.advances.trans h.advances
  stack := h.stack
  pending := h.pending.trans h₁.pending
  depth := h.depth

/-- Code that is reached after a run. -/
theorem Outcome.after_run {r : Except Stop α × Activation × World}
    (h : B.Outcome ctx n u b₁ b' κ₁ handling f₁ w₁ base Post r)
    (h₁ : Arrived B ctx u b b₁ κ κ₁ handling f f₁ w w₁ vars₁) : B.Outcome ctx n u b b' κ handling f w base Post r := by
  rcases h with hexc | hends
  · exact .inl (hexc.mono fun stop hq => hq.of_advances h₁.advances)
  rcases r with ⟨stop | a, vars', wE'⟩
  · obtain ⟨κ', f', w', pc, stop', hfail, hstop⟩ := hends
    exact .inr ⟨κ', f', w', pc, stop', hfail.after_run h₁, hstop⟩
  · obtain ⟨κ', f', w', vs, harr, hlen, hpost, hw⟩ := hends
    exact .inr ⟨κ', f', w', vs, harr.after_run h₁, hlen, hpost, hw⟩

/-- A piece of code whose end leads straight on to the end of all of it. -/
theorem Outcome.onward {r : Except Stop α × Activation × World}
    (h : B.Outcome ctx n u b b₁ κ handling f w base Post r) (hg : Builder.Grows ls b₁ D b' D')
    (hgo : ∀ f' w', u.Advances B.machine ⟨b₁.pc, f', w'⟩ ⟨b'.pc, f', w'⟩)
    (hd : ∀ d, b₁.depth = some d → b'.depth = some d) : B.Outcome ctx n u b b' κ handling f w base Post r := by
  refine h.imp (fun hexc => hexc.mono fun stop hq => hq.extend hg) fun hends => ?_
  rcases r with ⟨stop | a, vars', wE'⟩
  · obtain ⟨κ', f', w', pc, stop', hfail, hstop⟩ := hends
    exact ⟨κ', f', w', pc, stop', hfail.extend hg, hstop⟩
  · obtain ⟨κ', f', w', vs, harr, hlen, hpost, hw⟩ := hends
    have hdepth := hd _ harr.depth
    exact ⟨κ', f', w', vs, { harr with advances := harr.advances.trans (hgo f' w'), depth := hdepth }, hlen, hpost, hw⟩

theorem Arrives.arrived (h : B.Arrives ctx u b b₁ κ κ₁ handling f f₁ w w₁ vars₁ vs₁ base)
    (hg : Builder.Grows ls b D b₁ D') : Arrived B ctx u b b₁ κ κ₁ handling f f₁ w w₁ vars₁ :=
  ⟨h.after, h.advances, h.pending, by simpa using hg.locals.length_le⟩

theorem Ready.after {vars : Activation} {wE wE₁ : World} (h : B.Ready ctx u b κ handling f vars w wE)
    (h₁ : B.Arrives ctx u b b₁ κ κ₁ handling f f₁ w w₁ vars₁ vs₁ base) (hn : b₁.finallyNesting = b.finallyNesting)
    (hw : B.world κ₁ w₁ wE₁) : B.Ready ctx u b₁ κ₁ handling f₁ vars₁ w₁ wE₁ where
  depth := h₁.depth
  nesting := by rw [h₁.pending, h.nesting, hn]
  locals := by rw [h₁.after.keeps.locals, h.locals]
  corresponds := h₁.after.corresponds
  world := hw

/-- A computation after another one: where the first has a value, the code goes on from where it has
arrived; otherwise both end there. -/
theorem Outcome.bind {g : α → EvalM β} {vars : Activation} {wE : World}
    {Mid : B.Stage → α → List Value → Prop} {Post : B.Stage → β → List Value → Prop}
    (h : B.Outcome ctx n u b b₁ κ handling f w base Mid (e (B.eval handling) (vars, wE)))
    (h₁ : Builder.Grows ls b D b₁ D') {ls' : List Nat} {E E' : Nat → Option Nat} (h₂ : Builder.Grows ls' b₁ E b' E')
    (hnext : ∀ {κ₁ f₁ w₁ vs₁ a vars₁ wE₁}, B.Arrives ctx u b b₁ κ κ₁ handling f f₁ w w₁ vars₁ vs₁ base →
      vs₁.length = n → Mid κ₁ a vs₁ → B.world κ₁ w₁ wE₁ →
      B.Outcome ctx k u b₁ b' κ₁ handling f₁ w₁ base Post (g a (B.eval handling) (vars₁, wE₁))) :
    B.Outcome ctx k u b b' κ handling f w base Post ((e >>= g) (B.eval handling) (vars, wE)) := by
  rcases hr : e (B.eval handling) (vars, wE) with ⟨stop | a, vars₁, wE₁⟩ <;> rw [hr] at h
  · rw [Act.bind_error hr]
    rcases h with hexc | hends
    · exact .inl (hexc.error.mono fun stop hq => hq.extend h₂)
    · obtain ⟨κ', f', w', pc, stop', hfail, hstop⟩ := hends
      exact .inr ⟨κ', f', w', pc, stop', hfail.extend h₂, hstop⟩
  · rw [Act.bind_ok hr]
    rcases h with hexc | hends
    · exact .inl ((hexc.machine _).mono fun stop hq => hq.extend h₂)
    · obtain ⟨κ₁, f₁, w₁, vs₁, harr, hlen₁, hmid, hw₁⟩ := hends
      exact (hnext harr hlen₁ hmid hw₁).after_run (harr.arrived h₁)

end

namespace Sim

/-- The code of a simulation, once it is there. -/
theorem adds (h : B.Sim ctx m n Pre x e Post) (ht : b.Tracks D)
    (hm : ∀ d, b.depth = some d → m ≤ d) (hx : x ctx b = .ok ((), b')) : ∃ D', EmitM.Adds [] m n b D b' D' :=
  (h.emits b D ht hm).result hx

/-- Weaker claims. -/
theorem mono {Pre' : B.Stage → List Value → Prop} {Post' : B.Stage → α → List Value → Prop}
    (h : B.Sim ctx m n Pre x e Post) (hpre : ∀ κ vs, Pre' κ vs → Pre κ vs)
    (hpost : ∀ κ a vs, Post κ a vs → Post' κ a vs) : B.Sim ctx m n Pre' x e Post' where
  emits := h.emits
  runs ht hfit hpast hx hlink κ handling f vars w wE vs base hready hstack hlen hvs := by
    refine (h.runs ht hfit hpast hx hlink hready hstack hlen (hpre _ _ hvs)).imp_right fun hends => ?_
    rcases hr : e (B.eval handling) (vars, wE) with ⟨stop | a, vars', wE'⟩ <;> rw [hr] at hends
    · exact hends
    · obtain ⟨κ', f', w', vs', harr, hlen', hp, hw⟩ := hends
      exact ⟨κ', f', w', vs', harr, hlen', hpost _ _ _ hp, hw⟩

/-- Code needs values on the stack that are there. -/
theorem le_depth {u : CodeUnit} {κ : B.Stage} {handling : List Value} {f : Frame} {vars : Activation} {w wE : World}
    {vs base : List Value} (hready : B.Ready ctx u b κ handling f vars w wE) (hstack : f.stack = vs ++ base)
    (hlen : vs.length = m) : ∀ d, b.depth = some d → m ≤ d := by
  intro d hd
  rw [hready.depth, hstack, List.length_append, hlen] at hd
  cases hd
  omega

theorem bind [Nonempty α] {g : α → EvalM β} {Mid : B.Stage → α → List Value → Prop}
    {Post : B.Stage → β → List Value → Prop} (hx : B.Sim ctx m n Pre x e Mid)
    (hy : ∀ a, B.Sim ctx n k (fun κ => Mid κ a) y (g a) Post) : B.Sim ctx m k Pre (do x; y) (e >>= g) Post where
  emits := hx.emits.bind fun _ => (hy (Classical.arbitrary α)).emits
  runs {b b' D u} ht hfit hpast hxy hlink κ handling f vars w wE vs base hready hstack hlen hpre := by
    obtain ⟨⟨⟩, b₁, hx₁, hy₁⟩ := EmitM.bind_eq_ok hxy
    have hm := le_depth hready hstack hlen
    obtain ⟨D₁, h₁⟩ := hx.adds ht hm hx₁
    obtain ⟨D₂, h₂⟩ := (hy (Classical.arbitrary α)).adds h₁.tracks (h₁.le hm) hy₁
    have hlink₁ : b₁.Links u := hlink.mono h₂.grows (by simp)
    refine (hx.runs ht hfit hpast hx₁ hlink₁ hready hstack hlen hpre).bind h₁.grows h₂.grows ?_
    intro κ₁ f₁ w₁ vs₁ a vars₁ wE₁ harr hlen₁ hmid hw₁
    exact (hy a).runs h₁.tracks (hfit.mono h₁.grows) (hpast.mono h₁.grows) hy₁ hlink
      (hready.after harr h₁.nesting hw₁) harr.stack hlen₁ hmid

/-- Values further down the stack stay where they are. -/
theorem frame {j : Nat} (h : B.Sim ctx m n Pre x e Post)
    (F : B.Stage → List Value → Prop) (hF : ∀ {κ κ' vs}, κ ≤ κ' → F κ vs → F κ' vs) :
    B.Sim ctx (m + j) (n + j) (fun κ vs => ∃ us ws, vs = us ++ ws ∧ ws.length = j ∧ Pre κ us ∧ F κ ws) x e
      (fun κ a vs => ∃ us ws, vs = us ++ ws ∧ ws.length = j ∧ Post κ a us ∧ F κ ws) where
  emits := h.emits.add j
  runs {b b' D u} ht hfit hpast hx hlink κ handling f vars w wE vs base hready hstack hlen hpre := by
    obtain ⟨us, ws, rfl, hj, hus, hws⟩ := hpre
    rw [List.append_assoc] at hstack
    rw [List.length_append] at hlen
    refine (h.runs ht hfit hpast hx hlink hready hstack (by omega) hus).imp_right fun hends => ?_
    rcases hr : e (B.eval handling) (vars, wE) with ⟨stop | a, vars', wE'⟩ <;> rw [hr] at hends
    · obtain ⟨κ', f', w', pc, stop', hfail, hstop⟩ := hends
      exact ⟨κ', f', w', pc, stop', { hfail with stack := (List.suffix_append ws base).trans hfail.stack }, hstop⟩
    · obtain ⟨κ', f', w', vs', harr, hlen', hp, hw⟩ := hends
      refine ⟨κ', f', w', vs' ++ ws, { harr with stack := ?_ }, ?_, ⟨vs', ws, rfl, hj, hp, hF harr.after.stage hws⟩, hw⟩
      · rw [harr.stack, List.append_assoc]
      · rw [List.length_append, hlen', hj]

end Sim

end Bridge

/-! ## Straight code -/

/-- Plain instructions have been added to the code. -/
structure Builder.Writes (b b' : Builder) (is : List Instr) : Prop where
  instrs : b'.instrs.toList = b.instrs.toList ++ is
  handlers : b'.handlers = b.handlers
  locals : b'.locals = b.locals
  target : ∀ i ∈ is, i.target? = none
  flow : (∀ i ∈ is, i.endsFlow = false) → b.depth.isSome → b'.depth.isSome
  head : b'.params = b.params ∧ b'.layout = b.layout

theorem Builder.nest_inv {i : Instr} (h : b.nest i = .ok b') :
    b'.instrs = b.instrs ∧ b'.handlers = b.handlers ∧ b'.locals = b.locals ∧ b'.depth = b.depth := by
  unfold Builder.nest at h
  split at h
  · cases h
    exact ⟨rfl, rfl, rfl, rfl⟩
  · split at h
    · cases h
    · cases h
      exact ⟨rfl, rfl, rfl, rfl⟩
  · cases h
    exact ⟨rfl, rfl, rfl, rfl⟩

theorem Builder.apply_inv {i : Instr} (h : b.apply i = .ok b') :
    b'.instrs = b.instrs ∧ b'.handlers = b.handlers ∧ b'.locals = b.locals ∧ (b.depth.isSome → b'.depth.isSome) := by
  unfold Builder.apply at h
  split at h
  · cases h
    exact ⟨rfl, rfl, rfl, fun h => h⟩
  · split at h
    · cases h
    · cases h
      exact ⟨rfl, rfl, rfl, fun _ => rfl⟩

theorem Builder.Writes.append {b₁ : Builder} {is js : List Instr} (h : b.Writes b₁ is) (h' : b₁.Writes b' js) :
    b.Writes b' (is ++ js) where
  instrs := by rw [h'.instrs, h.instrs, List.append_assoc]
  handlers := h'.handlers.trans h.handlers
  locals := h'.locals.trans h.locals
  target := by
    intro i hi
    rcases List.mem_append.1 hi with hi | hi
    · exact h.target i hi
    · exact h'.target i hi
  flow hall hb := by
    rw [List.forall_mem_append] at hall
    exact h'.flow hall.2 (h.flow hall.1 hb)
  head := ⟨h'.head.1.trans h.head.1, h'.head.2.trans h.head.2⟩

theorem EmitM.writes_emit {i : Instr} (h : EmitM.emit i ctx b = .ok ((), b')) : b.Writes b' [i] := by
  have hemit : b.emit i = .ok b' := by
    unfold EmitM.emit EmitM.build at h
    split at h
    · cases h
      assumption
    · cases h
  have hhead := (Builder.appends_emit hemit).head
  rcases htarget : i.target? with _ | t <;> simp only [Builder.emit, htarget] at hemit
  · rcases h₁ : b.nest i with d | b₁ <;> simp only [h₁, bind, Except.bind, Option.isSome_none, Bool.false_eq_true,
      if_false] at hemit
    · cases hemit
    · rcases h₂ : b₁.apply i with d | b₂ <;> simp only [h₂] at hemit
      · cases hemit
      · obtain ⟨hd₁, hh₁, hl₁, hdep₁⟩ := Builder.nest_inv h₁
        obtain ⟨hd₂, hh₂, hl₂, hdep₂⟩ := Builder.apply_inv h₂
        cases hemit
        refine ⟨by simp [hd₂, hd₁], hh₂.trans hh₁, hl₂.trans hl₁, by simpa using htarget, fun hf hb => ?_, hhead⟩
        simp only [hf i List.mem_cons_self, Bool.false_eq_true, if_false]
        exact hdep₂ (by rw [hdep₁]; exact hb)
  · cases hemit

theorem EmitM.writes_emits : ∀ {is : List Instr} {b : Builder}, (is.forM EmitM.emit) ctx b = .ok ((), b') →
    b.Writes b' is
  | [], b, h => by
    cases h
    exact ⟨by simp, rfl, rfl, by simp, fun _ h => h, rfl, rfl⟩
  | i :: is, b, h => by
    obtain ⟨⟨⟩, b₁, hi, his⟩ := EmitM.bind_eq_ok (x := EmitM.emit i) (f := fun _ => is.forM EmitM.emit) h
    exact (EmitM.writes_emit hi).append (EmitM.writes_emits his)

theorem Builder.Writes.pc {is : List Instr} (h : b.Writes b' is) : b'.pc = b.pc + is.length := by
  have := congrArg List.length h.instrs
  simpa [Builder.pc] using this

theorem Builder.Writes.straight {is : List Instr} {u : CodeUnit} (h : b.Writes b' is) (hu : b'.Links u)
    (hret : ∀ i ∈ is, i ≠ .ret) : u.Straight b.pc is where
  code k i hk := by
    refine hu.plain _ _ (.plain ?_ (h.target i (List.mem_of_getElem? hk)))
    rw [← Array.getElem?_toList, h.instrs, List.getElem?_append_right (by simp [Builder.pc])]
    simp [Builder.pc, hk]
  target := h.target
  noRet := hret

namespace Bridge

variable {B : Bridge} {α : Type} {m n : Nat} {Pre : B.Stage → List Value → Prop} {is : List Instr} {e : EvalM α}
  {Post : B.Stage → α → List Value → Prop}

variable (B) in
/-- The effects of instructions answer to a computation of the evaluator. -/
def Answers (ctx : EmitContext) (n l : Nat) (κ : B.Stage) (handling : List Value) (f : Frame) (base : List Value)
    (Post : B.Stage → α → List Value → Prop) (r : Except Stop Unit × Frame × World) :
    Except Stop α × Activation × World → Prop
  | (.ok a, vars', wE') => ∃ κ' f' w' vs, r = (.ok (), f', w') ∧ B.After ctx l κ κ' handling f f' vars' ∧
      f'.stack = vs ++ base ∧ f'.pending = f.pending ∧ vs.length = n ∧ Post κ' a vs ∧ B.world κ' w' wE'
  | (.error stop, vars', wE') => ∃ κ' f' w' stop', r = (.error stop', f', w') ∧
      B.After ctx l κ κ' handling f f' vars' ∧ base <:+ f'.stack ∧ f.pending <:+ f'.pending ∧
      B.ends κ' stop' w' stop wE'

/-- A run of straight code comes to what its effects answer to. Control goes on after it, unless the
computation never has a value. -/
theorem Outcome.straight {u : CodeUnit} {κ : B.Stage} {handling : List Value} {f : Frame} {vars : Activation}
    {w wE : World} {vs base : List Value}
    (hx : (is.forM EmitM.emit) ctx b = .ok ((), b')) (hadds : EmitM.Adds [] m n b D b' D') (hpast : b.Past)
    (hlink : b'.Links u) (hret : ∀ i ∈ is, i ≠ .ret)
    (hflow : (∀ i ∈ is, i.endsFlow = false) ∨ ∀ ec s a t, e ec s ≠ (.ok a, t))
    (hready : B.Ready ctx u b κ handling f vars w wE) (hstack : f.stack = vs ++ base) (hlen : vs.length = m)
    (hans : B.Excused (fun stop => (CodeUnit.effects is B.machine (f, w)).1 = .error stop)
        (e (B.eval handling) (vars, wE)) ∨
      B.Answers ctx n b.locals.size κ handling f base Post (CodeUnit.effects is B.machine (f, w))
        (e (B.eval handling) (vars, wE))) :
    B.Outcome ctx n u b b' κ handling f w base Post (e (B.eval handling) (vars, wE)) := by
  have hw := EmitM.writes_emits hx
  have hrun := (hw.straight hlink hret).run B.machine is f w
  have hunhandled : ∀ k v, ∀ e ∈ b'.handlers, e.accepts (b.pc + k) v = false := by
    intro k v e he
    rw [hw.handlers] at he
    have hstop := hpast e he
    exact Handler.accepts_of_not_covers (fun hcov => by have := hcov.2; omega) v
  rcases hans with hexc | hans
  · -- a stop that is excused may come from any of the instructions
    refine .inl (hexc.mono fun stop hstop => ?_)
    rcases hr : CodeUnit.effects is B.machine (f, w) with ⟨stop' | ⟨⟩, f', w'⟩ <;> rw [hr] at hrun hstop
    · cases hstop
      obtain ⟨k, hk, hstops⟩ := hrun
      exact ⟨_, f', w', hstops, by rw [hw.pc]; omega, fun v _ => hunhandled k v⟩
    · cases hstop
  · right
    rcases hr : e (B.eval handling) (vars, wE) with ⟨stop | a, vars', wE'⟩ <;> rw [hr] at hans
    · obtain ⟨κ', f', w', stop', hm', hafter, hbase, hpend, hends⟩ := hans
      rw [hm'] at hrun
      obtain ⟨k, hk, hstops⟩ := hrun
      refine ⟨κ', f', w', b.pc + k, stop', ?_, hends⟩
      exact ⟨hafter, hstops, by rw [hw.pc]; omega, hbase, hpend, fun v _ => hunhandled k v⟩
    · obtain ⟨κ', f', w', vs', hm', hafter, hst, hpend, hlen', hp, hworld⟩ := hans
      rw [hm'] at hrun
      refine ⟨κ', f', w', vs', ⟨hafter, by rw [hw.pc]; exact hrun, hst, hpend, ?_⟩, hlen', hp, hworld⟩
      -- control goes on behind the code, so its depth is known there
      have hflow : ∀ i ∈ is, i.endsFlow = false := by
        rcases hflow with hflow | hnever
        · exact hflow
        · exact absurd hr (hnever _ _ _ _)
      obtain ⟨d', hd'⟩ := Option.isSome_iff_exists.1 (hw.flow hflow (by rw [hready.depth]; rfl))
      obtain ⟨d, hd, hsum⟩ := hadds.shifts d' hd'
      rw [hready.depth] at hd
      cases hd
      rw [hd', hst, List.length_append, hlen']
      rw [hstack, List.length_append, hlen] at hsum
      congr 1
      omega

/-- Straight code simulates what its effects answer to. -/
theorem Sim.straight (he : EmitM.Emits ctx m n (is.forM EmitM.emit)) (hret : ∀ i ∈ is, i ≠ .ret)
    (hflow : (∀ i ∈ is, i.endsFlow = false) ∨ ∀ ec s a t, e ec s ≠ (.ok a, t))
    (hans : ∀ {b : Builder} {u : CodeUnit} {κ : B.Stage} {handling f vars w wE vs base}, ctx.Fits b →
      B.Ready ctx u b κ handling f vars w wE → f.stack = vs ++ base → vs.length = m → Pre κ vs →
      B.Excused (fun stop => (CodeUnit.effects is B.machine (f, w)).1 = .error stop)
          (e (B.eval handling) (vars, wE)) ∨
        B.Answers ctx n b.locals.size κ handling f base Post (CodeUnit.effects is B.machine (f, w))
          (e (B.eval handling) (vars, wE))) :
    B.Sim ctx m n Pre (is.forM EmitM.emit) e Post where
  emits := he
  runs {b b' D u} ht hfit hpast hx hlink κ handling f vars w wE vs base hready hstack hlen hvs := by
    obtain ⟨D', hadds⟩ := (he b D ht (le_depth hready hstack hlen)).result hx
    exact .straight hx hadds hpast hlink hret hflow hready hstack hlen (hans hfit hready hstack hlen hvs)

end Bridge

end ExprCompiler
