/-
Rules for simulations: code that the generator's own look-ups choose, single instructions, values one
above the other on the stack, and branches. A branch over code and a branch between two pieces of code
simulate a choice of the evaluator; where the pieces start and end is known from the generator's rules.
-/
import ExprCompiler.Proofs.Emit.Balance
import ExprCompiler.Proofs.Simulation.Bridge

namespace ExprCompiler

/-- Whether a branch that tests a value is taken. -/
def BranchKind.takes : BranchKind → Value → Bool
  | .always, _ => true
  | .ifTrue, v => v.isTrue
  | .ifFalse, v => !v.isTrue
  | .ifNull, v => v.isNull

namespace CodeUnit

variable {u : CodeUnit} {fc : FrameContext} {pc t : Nat} {f : Frame} {w : World}

/-- A branch that tests the topmost value. -/
theorem advance_branch {kind : BranchKind} {v : Value} {vs : List Value}
    (hi : u.instrs[pc]? = some (.branch kind t)) (hk : (Instr.branch kind 0).pops = 1) (hst : f.stack = v :: vs)
    (hlt : pc < t) :
    u.Advance fc ⟨pc, f, w⟩ ⟨if kind.takes v then t else pc + 1, { f with stack := vs }, w⟩ := by
  have hpop : MachineM.pop fc (f, w) = (.ok v, { f with stack := vs }, w) := by
    rw [MachineM.pop, Act.bind_ok (Act.changeOwn_apply MachineM.popped fc (f, w))]
    simp only [MachineM.popped, hst]
    rfl
  have htakes : MachineM.takes kind fc (f, w) = (.ok (kind.takes v), { f with stack := vs }, w) := by
    cases kind with
    | always => cases hk
    | ifTrue | ifFalse | ifNull => rw [MachineM.takes, Act.bind_ok hpop]; rfl
  refine ⟨?_, ?_⟩
  · unfold CodeUnit.step
    simp only [hi, MachineM.exec, Act.bind_ok htakes, Act.pure_apply]
    cases kind.takes v <;> rfl
  · simp only
    split <;> omega

/-- A branch that is always taken. -/
theorem advance_always (hi : u.instrs[pc]? = some (.branch .always t)) (hlt : pc < t) :
    u.Advance fc ⟨pc, f, w⟩ ⟨t, f, w⟩ := by
  refine ⟨?_, hlt⟩
  unfold CodeUnit.step
  simp only [hi, MachineM.exec, MachineM.takes]
  rfl

end CodeUnit

namespace Builder

variable {b b' : Builder} {D D' : Nat → Option Nat} {u : CodeUnit} {kind : BranchKind} {l : Nat} {d : Option Nat}

/-- The instruction of a branch, once its label is bound. -/
theorem Branched.instr {ls : List Nat} {b'' : Builder} {D'' : Nat → Option Nat} {s : LabelState} {p : Nat}
    (h : Branched kind l d b D b' D') (hg : Grows ls b' D' b'' D'') (hu : b''.Links u) (hs : b''.labels[l]? = some s)
    (hp : s.pc = some p) : u.instrs[b.pc]? = some (.branch kind p) :=
  hu.branch b.pc kind l s p (hg.written _ _ h.written) hs hp

end Builder

/-- A piece of code inside of a larger one. -/
structure EmitM.Leg (ctx : EmitContext) (x : EmitM Unit) (u : CodeUnit) (b c c' b' : Builder) : Prop where
  code : x ctx c = .ok ((), c')
  tracks : ∃ D, c.Tracks D
  before : ∃ ls D D', Builder.Grows ls b D c D'
  after : ∃ ls D D', Builder.Grows ls c' D b' D'
  links : c'.Links u

namespace EmitM

variable {ctx : EmitContext} {x y : EmitM Unit} {kind : BranchKind} {l l₁ l₂ j k : Nat} {b b' : Builder}
  {D : Nat → Option Nat} {u : CodeUnit}

/-- The instructions of a branch over code. -/
theorem Skips.linked (h : Skips ctx kind x l j b D b') (hu : b'.Links u) :
    ∃ c c', Leg ctx x u b c c' b' ∧ c.pc = b.pc + 1 ∧ b'.pc = c'.pc ∧ c.pc ≤ c'.pc ∧
      u.instrs[b.pc]? = some (.branch kind b'.pc) ∧ c.depth = Builder.depthAfter (.branch kind 0) b.depth ∧
      c.finallyNesting = b.finallyNesting ∧ b'.depth = c'.depth.or c.depth ∧ Builder.Shifts j j c c' ∧
      ∀ e ∈ b'.handlers, e ∈ b.handlers ∨ b.pc < e.start := by
  obtain ⟨d, c, c', D₁, D₂, hbr, hx, ha, hmark⟩ := h
  have hlabel := ha.grows.kept l _ (by simp) hbr.labels.here
  have hlinks : c'.Links u := hu.mono hmark.grows fun l' hl' s hs => by
    obtain rfl := List.mem_singleton.1 hl'
    rw [hlabel] at hs
    cases hs
    rfl
  refine ⟨c, c', ⟨hx, ⟨D₁, hbr.tracks⟩, ⟨_, _, _, hbr.grows⟩, ⟨_, _, _, hmark.grows⟩, hlinks⟩, hbr.pc, hmark.pc,
    ha.grows.pc_le, ?_, hbr.depth, hbr.nesting, hmark.depth, ha.shifts, fun e he => ?_⟩
  · rw [hmark.pc]
    exact hbr.instr ((ha.grows.mono (List.nil_subset [l])).trans hmark.grows) hu hmark.labels.here rfl
  · rw [← hbr.handlers]
    have hpc := hbr.pc
    exact (((ha.grows.mono (List.nil_subset [l])).trans hmark.grows).regions e he).imp_right fun h => by omega

/-- The instructions of two ways that meet again. -/
theorem Forks.linked (h : Forks ctx kind x y l₁ l₂ j k b D b') (hne : l₁ ≠ l₂) (hl₂ : b.labels[l₂]? = some {})
    (hu : b'.Links u) :
    ∃ c₁ c₁' c₂ c₂', Leg ctx x u b c₁ c₁' b' ∧ Leg ctx y u b c₂ c₂' b' ∧
      (c₁.pc = b.pc + 1 ∧ c₁.pc ≤ c₁'.pc ∧ c₂.pc = c₁'.pc + 1 ∧ c₂.pc ≤ c₂'.pc ∧ b'.pc = c₂'.pc) ∧
      u.instrs[b.pc]? = some (.branch kind c₂.pc) ∧ u.instrs[c₁'.pc]? = some (.branch .always b'.pc) ∧
      c₁.depth = Builder.depthAfter (.branch kind 0) b.depth ∧ c₂.depth = c₁.depth ∧
      (c₁.finallyNesting = b.finallyNesting ∧ c₂.finallyNesting = b.finallyNesting) ∧
      b'.depth = c₂'.depth.or c₁'.depth ∧ Builder.Shifts j k c₁ c₁' ∧ Builder.Shifts j k c₂ c₂' ∧
      ∀ e ∈ b'.handlers, e ∈ b.handlers ∨ b.pc < e.start ∧ (e.stop ≤ c₁'.pc ∨ c₁'.pc < e.start) := by
  obtain ⟨d, d', c₁, c₁', c₃, c₂, c₂', D₁, D₂, D₃, D₅, hbr, hx, hax, hjump, hmark, hy, hay, hjoin⟩ := h
  have hgrows₂ : Builder.Grows [l₁, l₂] c₂' D₅ b' D₅ := hjoin.grows.mono (by simp)
  have hgrows₁ : Builder.Grows [l₁, l₂] c₃ D₃ b' D₅ :=
    ((hmark.grows.mono (by simp)).trans (hay.grows.mono (List.nil_subset _))).trans hgrows₂
  have hgrows₀ : Builder.Grows [l₁, l₂] c₁' D₂ b' D₅ := (hjump.grows.mono (by simp)).trans hgrows₁
  -- the first label is bound between the two ways, the second one at the end
  have hl₁ : b'.labels[l₁]? = some ⟨some c₃.pc, c₁.depth⟩ := by
    rw [hjoin.labels.other l₁ hne]
    exact hay.grows.kept l₁ _ (by simp) hmark.labels.here
  have hlinks₂ : c₂'.Links u := hu.mono hjoin.grows fun l hl s hs => by
    obtain rfl := List.mem_singleton.1 hl
    have hkept := hay.grows.kept l _ (by simp) ((hmark.labels.other l hne.symm).trans hjump.labels.here)
    rw [hkept] at hs
    cases hs
    rfl
  have hlinks₁ : c₁'.Links u := by
    refine hu.mono hgrows₀ fun l hl s hs => ?_
    rcases List.mem_cons.1 hl with rfl | hl
    · rw [hax.grows.kept l _ (by simp) hbr.labels.here] at hs
      cases hs
      rfl
    · obtain rfl := List.mem_singleton.1 hl
      rw [hax.grows.kept l _ (by simp) ((hbr.labels.other l hne.symm).trans hl₂)] at hs
      cases hs
      rfl
  have hgrows : Builder.Grows [l₁, l₂] b D c₂ D₃ :=
    (((hbr.grows.mono (by simp)).trans (hax.grows.mono (List.nil_subset _))).trans
      (hjump.grows.mono (by simp))).trans (hmark.grows.mono (by simp))
  refine ⟨c₁, c₁', c₂, c₂', ⟨hx, ⟨D₁, hbr.tracks⟩, ⟨_, _, _, hbr.grows⟩, ⟨_, _, _, hgrows₀⟩, hlinks₁⟩,
    ⟨hy, ⟨D₃, hmark.tracks⟩, ⟨_, _, _, hgrows⟩, ⟨_, _, _, hgrows₂⟩, hlinks₂⟩,
    ⟨hbr.pc, hax.grows.pc_le, by rw [hmark.pc, hjump.pc], hay.grows.pc_le, hjoin.pc⟩, ?_, ?_, hbr.depth, hmark.depth,
    ⟨hbr.nesting, ?_⟩, hjoin.depth, hax.shifts, hay.shifts, fun e he => ?_⟩
  · rw [hmark.pc]
    exact hbr.instr ((hax.grows.mono (List.nil_subset _)).trans hgrows₀) hu hl₁ rfl
  · rw [hjoin.pc]
    exact hjump.instr hgrows₁ hu hjoin.labels.here rfl
  · rw [hmark.nesting, hjump.nesting, hax.nesting, hbr.nesting]
  · have hpc := hbr.pc
    have hpc' := hjump.pc
    have hle := hax.grows.pc_le
    rcases hgrows₁.regions e he with he | he
    · rw [hjump.handlers] at he
      rcases hax.grows.regions e he with he | he
      · rw [hbr.handlers] at he
        exact .inl he
      · exact .inr ⟨by omega, .inl he.2⟩
    · exact .inr ⟨by omega, .inr (by omega)⟩

end EmitM

theorem Frame.var?_congr {f f' : Frame} (ha : f'.args = f.args) (hl : f'.locals = f.locals) (x : FrameVar) :
    f'.var? x = f.var? x := by
  cases x with
  | arg i => simp only [Frame.var?, ha]
  | localVar i => simp only [Frame.var?, hl]
  | closure i => rfl

namespace Bridge

variable {B : Bridge} {ctx : EmitContext} {α β : Type} {m n k j : Nat} {Pre : B.Stage → List Value → Prop}
  {x y t : EmitM Unit} {e : EvalM α}

/-! ## Frames that differ in the stack -/

section

variable {κ κ' : B.Stage} {handling : List Value} {f f' : Frame} {vars : Activation}

theorem Corresponds.mono (h : B.Corresponds ctx κ handling f vars) (hκ : κ ≤ κ') :
    B.Corresponds ctx κ' handling f vars where
  vars := h.vars.imp fun _ _ ⟨hp, v, hv, hvalue⟩ => ⟨hp, v, hv, B.value_mono hκ hvalue⟩
  handling := h.handling

theorem Corresponds.congr (h : B.Corresponds ctx κ handling f vars) (ha : f'.args = f.args)
    (hl : f'.locals = f.locals) : B.Corresponds ctx κ handling f' vars where
  vars := by
    refine h.vars.imp fun slot x hx => ?_
    rw [Frame.var?_congr ha hl]
    exact hx
  handling := by
    rw [hl]
    exact h.handling

/-- A change of the stack is no change of the variables. -/
theorem Corresponds.after (h : B.Corresponds ctx κ handling f vars) (hκ : κ ≤ κ') (ha : f'.args = f.args)
    (hl : f'.locals = f.locals) : B.After ctx n κ κ' handling f f' vars where
  stage := hκ
  corresponds := (h.mono hκ).congr ha hl
  keeps := ⟨fun x _ _ => Frame.var?_congr ha hl x, by rw [hl]⟩

end

namespace Sim

variable {Post : B.Stage → α → List Value → Prop} {handling : List Value}

/-! ## Generators and computations that agree -/

/-- Only what a generator does in its surroundings counts. -/
theorem of_code (h : B.Sim ctx m n Pre y e Post) (hx : ∀ b, x ctx b = y ctx b) : B.Sim ctx m n Pre x e Post := by
  have heq : x ctx = y ctx := funext hx
  refine ⟨fun b D ht hm => ?_, fun ht hfit hpast hrun => ?_⟩
  · have hy := h.emits b D ht hm
    unfold EmitM.Yields at hy ⊢
    rw [heq]
    exact hy
  · rw [heq] at hrun
    exact h.runs ht hfit hpast hrun

/-- Only what a computation does in related worlds counts. -/
theorem of_eval_at {e' : EvalM α} (h : B.Sim ctx m n Pre x e' Post)
    (he : ∀ κ handling vars w wE, B.world κ w wE → e (B.eval handling) (vars, wE) = e' (B.eval handling) (vars, wE)) :
    B.Sim ctx m n Pre x e Post := by
  refine ⟨h.emits,
    fun {b b' D u} ht hfit hpast hrun hlink {κ handling f vars w wE vs base} hready hstack hlen hpre => ?_⟩
  rw [he κ handling vars w wE hready.world]
  exact h.runs ht hfit hpast hrun hlink hready hstack hlen hpre

/-- Only what a computation does in its surroundings counts. -/
theorem of_eval {e' : EvalM α} (h : B.Sim ctx m n Pre x e' Post)
    (he : ∀ handling s, e (B.eval handling) s = e' (B.eval handling) s) : B.Sim ctx m n Pre x e Post :=
  h.of_eval_at fun _ handling vars _ wE _ => he handling (vars, wE)

/-- A generator that never gives code simulates everything. -/
theorem of_refused (he : EmitM.Emits ctx m n x) (hx : ∀ b b', x ctx b ≠ .ok ((), b')) : B.Sim ctx m n Pre x e Post :=
  ⟨he, fun _ _ _ hrun => absurd hrun (hx _ _)⟩

/-! ## Branches -/

/-- A piece of code inside of a larger one, from where control comes to its start to the end of all. -/
theorem leg {b c c' b' : Builder} {u : CodeUnit} {κ κ₁ : B.Stage}
    {f f₁ : Frame} {w w₁ wE₁ : World} {vars₁ : Activation} {vs base : List Value}
    (h : B.Sim ctx m n Pre x e Post) (hleg : EmitM.Leg ctx x u b c c' b') (hfit : ctx.Fits b) (hpast : b.Past)
    (harrived : Arrived B ctx u b c κ κ₁ handling f f₁ w w₁ vars₁)
    (hready : B.Ready ctx u c κ₁ handling f₁ vars₁ w₁ wE₁)
    (hstack : f₁.stack = vs ++ base) (hlen : vs.length = m) (hpre : Pre κ₁ vs)
    (hgo : ∀ f' w', u.Advances B.machine ⟨c'.pc, f', w'⟩ ⟨b'.pc, f', w'⟩)
    (hd : ∀ d, c'.depth = some d → b'.depth = some d) :
    B.Outcome ctx n u b b' κ handling f w base Post (e (B.eval handling) (vars₁, wE₁)) := by
  obtain ⟨D, ht⟩ := hleg.tracks
  obtain ⟨ls, E, E', hbefore⟩ := hleg.before
  obtain ⟨ls', F, F', hafter⟩ := hleg.after
  have hends := h.runs ht (hfit.mono hbefore) (hpast.mono hbefore) hleg.code hleg.links hready hstack hlen hpre
  exact (hends.onward hafter hgo hd).after_run harrived

/-- A branch has tested the topmost value and gone on. -/
theorem arrived_branch {b c : Builder} {u : CodeUnit} {kind : BranchKind} {κ : B.Stage}
    {f : Frame} {w wE : World} {vars : Activation} {v : Value} {us : List Value} {target : Nat}
    (hready : B.Ready ctx u b κ handling f vars w wE) (hst : f.stack = v :: us)
    (hi : u.instrs[b.pc]? = some (.branch kind target)) (hk : (Instr.branch kind 0).pops = 1) (hlt : b.pc < target)
    (hc : c.pc = if kind.takes v then target else b.pc + 1) (hlocals : b.locals.size ≤ c.locals.size) :
    Arrived B ctx u b c κ κ handling f { f with stack := us } w w vars where
  after := hready.corresponds.after le_rfl rfl rfl
  advances := by
    rw [hc]
    exact (CodeUnit.advance_branch hi hk hst hlt).advances
  pending := rfl
  locals := hlocals

theorem depth_tested {b c : Builder} {u : CodeUnit} {kind : BranchKind} {κ : B.Stage}
    {f : Frame} {w wE : World} {vars : Activation} {v : Value} {us : List Value}
    (hready : B.Ready ctx u b κ handling f vars w wE) (hst : f.stack = v :: us)
    (hk : (Instr.branch kind 0).pops = 1) (hc : c.depth = Builder.depthAfter (.branch kind 0) b.depth) :
    c.depth = some us.length := by
  have hkind : (Instr.branch kind 0).endsFlow = false := by cases kind <;> simp_all [Instr.pops, Instr.endsFlow]
  rw [hc, hready.depth, hst, Builder.depthAfter, hkind, hk]
  simp [Instr.pushes]

/-- What a test leaves: the value to be tested, above what both ways start with. -/
def Tested (kind : BranchKind) (c : α → Bool) (Mid : B.Stage → α → List Value → Prop) :
    B.Stage → α → List Value → Prop :=
  fun κ a vs => ∃ v us, vs = v :: us ∧ kind.takes v = c a ∧ Mid κ a us

variable {kind : BranchKind} {g : α → EvalM β} {c : α → Bool} {Mid : B.Stage → α → List Value → Prop}
  {Post' : B.Stage → β → List Value → Prop}

/-- A branch between two ways that meet again. -/
theorem fork [Nonempty α] (hk : (Instr.branch kind 0).pops = 1) (ht : B.Sim ctx 0 (j + 1) Pre t e (Tested kind c Mid))
    (hx : EmitM.Emits ctx j k x) (hy : EmitM.Emits ctx j k y)
    (hsx : ∀ a, c a = false → B.Sim ctx j k (fun κ => Mid κ a) x (g a) Post')
    (hsy : ∀ a, c a = true → B.Sim ctx j k (fun κ => Mid κ a) y (g a) Post') :
    B.Sim ctx 0 k Pre (do
      let otherwise ← EmitM.newLabel
      let done ← EmitM.newLabel
      t
      EmitM.branch kind otherwise
      x
      EmitM.branch .always done
      EmitM.mark otherwise
      y
      EmitM.mark done) (e >>= g) Post' where
  emits := Emit.emits_fork kind hk ht.emits hx hy
  runs {b b' D u} htr hfit hpast hrun hlink κ handling f vars w wE vs base hready hstack hlen hpre := by
    rw [EmitM.bind_apply, EmitM.newLabel_apply] at hrun
    simp only at hrun
    rw [EmitM.bind_apply, EmitM.newLabel_apply] at hrun
    obtain ⟨⟨⟩, b₁, hrun₁, hrest⟩ := EmitM.bind_eq_ok hrun
    obtain ⟨D₁, h₁⟩ := ht.adds htr.newLabel.newLabel (by simp) hrun₁
    have hne : b.labels.size ≠ b.newLabel.2.labels.size := by simp [Builder.newLabel]
    have hl₁ := h₁.grows.kept _ _ (by simp) (Builder.labels_newLabel_of_some (Builder.labels_newLabel (b := b)))
    have hl₂ := h₁.grows.kept _ _ (by simp) (Builder.labels_newLabel (b := b.newLabel.2))
    obtain ⟨D₂, hadds, -, hforks⟩ := (EmitM.Yields.fork kind hk hx hy h₁.tracks (h₁.le (by simp)) hne hl₁ hl₂).result
      hrest
    have hlink₁ : b₁.Links u := hlink.mono hadds.grows fun l hl s hs => by
      rcases List.mem_cons.1 hl with rfl | hl
      · rw [hl₁] at hs
        cases hs
        rfl
      · obtain rfl := List.mem_singleton.1 hl
        rw [hl₂] at hs
        cases hs
        rfl
    have hnew : Builder.Grows [b.labels.size, b.newLabel.2.labels.size] b D b.newLabel.2.newLabel.2 D :=
      (Builder.Grows.newLabel.mono (by simp)).trans (Builder.Grows.newLabel.mono (by simp))
    have hready₀ : B.Ready ctx u b.newLabel.2.newLabel.2 κ handling f vars w wE :=
      ⟨hready.depth, hready.nesting, hready.locals, hready.corresponds, hready.world⟩
    have harrived₀ : Arrived B ctx u b b.newLabel.2.newLabel.2 κ κ handling f f w w vars :=
      ⟨hready.corresponds.after le_rfl rfl rfl, .refl, rfl, le_rfl⟩
    refine Outcome.after_run ?_ harrived₀
    refine (ht.runs htr.newLabel.newLabel (hfit.mono hnew) (hpast.mono hnew) hrun₁ hlink₁ hready₀ hstack hlen hpre).bind
      h₁.grows hadds.grows ?_
    rintro κ₁ f₁ w₁ vs₁ a vars₁ wE₁ harr hlen₁ ⟨v, us, rfl, hc, hmid⟩ hw₁
    have hready₁ := hready₀.after harr h₁.nesting hw₁
    have hstack₁ : f₁.stack = v :: (us ++ base) := harr.stack
    obtain ⟨c₁, c₁', c₂, c₂', hleg₁, hleg₂, ⟨hp₁, hp₁', hp₂, hp₂', hp'⟩, hbranch, hjump, hd₁, hd₂, ⟨hn₁, hn₂⟩, hd',
      hs₁, hs₂, -⟩ :=
      hforks.linked hne hl₂ hlink
    have hfit₁ := (hfit.mono hnew).mono h₁.grows
    have hpast₁ := (hpast.mono hnew).mono h₁.grows
    have hdc₁ := depth_tested hready₁ hstack₁ hk hd₁
    obtain ⟨ls₁, E₁, E₁', hg₁⟩ := hleg₁.before
    obtain ⟨ls₂, E₂, E₂', hg₂⟩ := hleg₂.before
    cases htaken : c a with
    | false =>
      -- the first way, and from its end over the second one
      have harr₁ := arrived_branch (c := c₁) hready₁ hstack₁ hbranch hk (by omega) (by simp [hc, htaken, hp₁])
        (by simpa using hg₁.locals.length_le)
      refine (hsx a htaken).leg hleg₁ hfit₁ hpast₁ harr₁ ⟨hdc₁, ?_, hready₁.locals, harr₁.after.corresponds, hw₁⟩ rfl
        (by simpa using hlen₁) hmid (fun f' w' => ?_) fun d hd => ?_
      · rw [hn₁]
        exact hready₁.nesting
      · exact (CodeUnit.advance_always hjump (by omega)).advances
      · rw [hd', hd]
        rcases hd₂' : c₂'.depth with _ | d₂
        · rfl
        · obtain ⟨e₁, he₁, hsum₁⟩ := hs₁ d hd
          obtain ⟨e₂, he₂, hsum₂⟩ := hs₂ d₂ hd₂'
          rw [hd₂, he₁] at he₂
          cases he₂
          rw [Option.some_or]
          congr 1
          omega
    | true =>
      have harr₂ := arrived_branch (c := c₂) hready₁ hstack₁ hbranch hk (by omega) (by simp [hc, htaken])
        (by simpa using hg₂.locals.length_le)
      refine (hsy a htaken).leg hleg₂ hfit₁ hpast₁ harr₂ ⟨hd₂.trans hdc₁, ?_, hready₁.locals, harr₂.after.corresponds,
        hw₁⟩ rfl (by simpa using hlen₁) hmid (fun f' w' => ?_) fun d hd => ?_
      · rw [hn₂]
        exact hready₁.nesting
      · rw [hp']
        exact .refl
      · rw [hd', hd, Option.some_or]

/-- A branch over code that is not needed. -/
theorem skip {g : α → EvalM α} (hk : (Instr.branch kind 0).pops = 1)
    (ht : B.Sim ctx 0 (j + 1) Pre t e (Tested kind c Mid)) (hx : EmitM.Emits ctx j j x)
    (hsx : ∀ a, c a = false → B.Sim ctx j j (fun κ => Mid κ a) x (g a) Post)
    (hskip : ∀ κ a us, c a = true → Mid κ a us → Post κ a us) :
    B.Sim ctx 0 j Pre (do
      let done ← EmitM.newLabel
      t
      EmitM.branch kind done
      x
      EmitM.mark done) (e >>= fun a => if c a then pure a else g a) Post where
  emits := Emit.emits_skip kind hk ht.emits hx
  runs {b b' D u} htr hfit hpast hrun hlink κ handling f vars w wE vs base hready hstack hlen hpre := by
    rw [EmitM.bind_apply, EmitM.newLabel_apply] at hrun
    obtain ⟨⟨⟩, b₁, hrun₁, hrest⟩ := EmitM.bind_eq_ok hrun
    obtain ⟨D₁, h₁⟩ := ht.adds htr.newLabel (by simp) hrun₁
    have hl := h₁.grows.kept _ _ (by simp) (Builder.labels_newLabel (b := b))
    obtain ⟨D₂, hadds, -, hskips⟩ := (EmitM.Yields.skip kind hk hx h₁.tracks (h₁.le (by simp)) hl).result hrest
    have hlink₁ : b₁.Links u := hlink.mono hadds.grows fun l hmem s hs => by
      obtain rfl := List.mem_singleton.1 hmem
      rw [hl] at hs
      cases hs
      rfl
    have hnew : Builder.Grows [b.labels.size] b D b.newLabel.2 D := .newLabel
    have hready₀ : B.Ready ctx u b.newLabel.2 κ handling f vars w wE :=
      ⟨hready.depth, hready.nesting, hready.locals, hready.corresponds, hready.world⟩
    have harrived₀ : Arrived B ctx u b b.newLabel.2 κ κ handling f f w w vars :=
      ⟨hready.corresponds.after le_rfl rfl rfl, .refl, rfl, le_rfl⟩
    refine Outcome.after_run ?_ harrived₀
    refine (ht.runs htr.newLabel (hfit.mono hnew) (hpast.mono hnew) hrun₁ hlink₁ hready₀ hstack hlen hpre).bind
      h₁.grows hadds.grows ?_
    rintro κ₁ f₁ w₁ vs₁ a vars₁ wE₁ harr hlen₁ ⟨v, us, rfl, hc, hmid⟩ hw₁
    have hready₁ := hready₀.after harr h₁.nesting hw₁
    have hstack₁ : f₁.stack = v :: (us ++ base) := harr.stack
    obtain ⟨c₁, c₁', hleg, hp₁, hp', hp₁', hbranch, hd₁, hn₁, hd', hs₁, -⟩ := hskips.linked hlink
    have hfit₁ := (hfit.mono hnew).mono h₁.grows
    have hpast₁ := (hpast.mono hnew).mono h₁.grows
    have hdc₁ := depth_tested hready₁ hstack₁ hk hd₁
    obtain ⟨ls₁, E₁, E₁', hg₁⟩ := hleg.before
    cases htaken : c a with
    | false =>
      have harr₁ := arrived_branch (c := c₁) hready₁ hstack₁ hbranch hk (by omega) (by simp [hc, htaken, hp₁])
        (by simpa using hg₁.locals.length_le)
      refine (hsx a htaken).leg hleg hfit₁ hpast₁ harr₁ ⟨hdc₁, ?_, hready₁.locals, harr₁.after.corresponds, hw₁⟩ rfl
        (by simpa using hlen₁) hmid (fun f' w' => ?_) fun d hd => ?_
      · rw [hn₁]
        exact hready₁.nesting
      · rw [hp']
        exact .refl
      · rw [hd', hd, Option.some_or]
    | true =>
      -- control goes to the end at once, with the depth that the code would have left
      have harr₂ := arrived_branch (c := b') hready₁ hstack₁ hbranch hk (by omega) (by simp [hc, htaken])
        (by simpa using hadds.grows.locals.length_le)
      refine .inr ⟨κ₁, { f₁ with stack := us ++ base }, w₁, us, ⟨harr₂.after, harr₂.advances, rfl, rfl, ?_⟩,
        by simpa using hlen₁, hskip κ₁ a us htaken hmid, hw₁⟩
      rw [hd', hdc₁]
      rcases hd₁' : c₁'.depth with _ | d₁
      · rfl
      · obtain ⟨e₁, he₁, hsum₁⟩ := hs₁ d₁ hd₁'
        rw [hdc₁] at he₁
        cases he₁
        rw [Option.some_or]
        show some d₁ = some (us ++ base).length
        congr 1
        omega

end Sim

end Bridge

end ExprCompiler
