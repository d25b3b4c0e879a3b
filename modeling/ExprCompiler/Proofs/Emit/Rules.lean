/-
Reasoning about code generation. A generator yields code with a property if it declines or gives such
code; it never ends in a defect of the code under construction. Most of what is said here is of one
form: from a stack with `m` values more than some depth, code is added that leaves `n` values more, or
from which control does not come back. Rules put such generators together, in sequence, around a
branch and around two branches that meet again.
-/
import ExprCompiler.Emit
import ExprCompiler.Proofs.Code.Builder
import ExprCompiler.Proofs.Code.Table

namespace ExprCompiler

/-- Defects of code under construction or of finished code. -/
def Defect.isOfCode : Defect → Bool
  | .branchEmitted | .emitUnderflow _ _ _ | .depthsDisagree _ _ | .markedTwice _ | .unmarkedPosition => true
  | .unmarkedBranches _ _ | .finallyUnopened | .finallyUnbalanced _ | .malformedUnit _ _ => true
  | _ => false

/-- Instructions that only take and leave values: no branches, no returns, no bounds of finally bodies. -/
def Instr.isPlain : Instr → Bool
  | .branch _ _ | .ret | .enterFinally | .endFinally => false
  | _ => true

namespace EmitM

variable {α β : Type} {ctx : EmitContext} {b : Builder} {P : Tries} {b' : Builder} {n : Nat} {D D' : Nat → Option Nat}

/-! ## Steps -/

theorem bind_apply (x : EmitM α) (f : α → EmitM β) (ctx : EmitContext) (b : Builder) :
    (x >>= f) ctx b = match x ctx b with
      | .ok (a, b') => f a ctx b'
      | .error e => .error e := by
  show (ReaderT.bind x f) ctx b = _
  simp only [ReaderT.bind, bind, StateT.bind, Except.bind]
  rcases x ctx b with e | ⟨a, b'⟩ <;> rfl

theorem bind_eq_ok {x : EmitM α} {f : α → EmitM β} {c : β} (h : (x >>= f) ctx b = .ok (c, b')) :
    ∃ a b₁, x ctx b = .ok (a, b₁) ∧ f a ctx b₁ = .ok (c, b') := by
  rw [bind_apply] at h
  split at h
  · exact ⟨_, _, ‹_›, h⟩
  · cases h

@[simp] theorem pure_apply (a : α) (ctx : EmitContext) (b : Builder) :
    (pure a : EmitM α) ctx b = .ok (a, b) := rfl

@[simp] theorem read_apply (ctx : EmitContext) (b : Builder) :
    (read : EmitM EmitContext) ctx b = .ok (ctx, b) := rfl

@[simp] theorem get_apply (ctx : EmitContext) (b : Builder) : (get : EmitM Builder) ctx b = .ok (b, b) := rfl

@[simp] theorem modify_apply (f : Builder → Builder) (ctx : EmitContext) (b : Builder) :
    (modify f : EmitM Unit) ctx b = .ok ((), f b) := rfl

@[simp] theorem throw_apply (e : Refusal) (ctx : EmitContext) (b : Builder) :
    (throw e : EmitM α) ctx b = .error e := rfl

@[simp] theorem newLabel_apply (ctx : EmitContext) (b : Builder) :
    newLabel ctx b = .ok (b.labels.size, b.newLabel.2) := rfl

@[simp] theorem newLocal_apply (ty : Ty) (ctx : EmitContext) (b : Builder) :
    newLocal ty ctx b = .ok ((b.newLocal ty).1, (b.newLocal ty).2) := rfl

@[simp] theorem withReader_apply (f : EmitContext → EmitContext) (x : EmitM α) (ctx : EmitContext) (b : Builder) :
    (withReader f x : EmitM α) ctx b = x (f ctx) b := rfl

theorem build_ok {f : Builder → Except Defect Builder} (h : f b = .ok b') :
    build f ctx b = .ok ((), b') := by
  unfold build
  rw [h]

/-! ## What a generator yields -/

/-- The generator declines or gives a result with `Q`, and meets no defect of the code. -/
def Yields (ctx : EmitContext) (b : Builder) (x : EmitM α) (Q : α → Builder → Prop) : Prop :=
  match x ctx b with
  | .ok (a, b') => Q a b'
  | .error (.declined _) => True
  | .error (.defect d) => d.isOfCode = false

namespace Yields

variable {x : EmitM α} {Q : α → Builder → Prop}

theorem of_ok {a : α} (h : x ctx b = .ok (a, b')) (hQ : Q a b') : Yields ctx b x Q := by
  unfold Yields
  rw [h]
  exact hQ

theorem bind {f : α → EmitM β} {R : β → Builder → Prop}
    (hx : Yields ctx b x Q) (hf : ∀ a b', Q a b' → Yields ctx b' (f a) R) : Yields ctx b (x >>= f) R := by
  unfold Yields at hx ⊢
  rw [bind_apply]
  rcases hxb : x ctx b with (d | d) | ⟨a, b'⟩ <;> rw [hxb] at hx
  · trivial
  · exact hx
  · exact hf a b' hx

/-- A step whose result is known, before the rest. -/
theorem bind_ok {f : α → EmitM β} {R : β → Builder → Prop} {a : α}
    (hx : x ctx b = .ok (a, b')) (hf : Yields ctx b' (f a) R) : Yields ctx b (x >>= f) R :=
  bind (of_ok (Q := fun a₁ b₁ => a₁ = a ∧ b₁ = b') hx ⟨rfl, rfl⟩) fun _ _ h => by
    rw [h.1, h.2]
    exact hf

theorem mono {R : α → Builder → Prop} (hx : Yields ctx b x Q) (h : ∀ a b', Q a b' → R a b') :
    Yields ctx b x R := by
  unfold Yields at hx ⊢
  rcases hxb : x ctx b with (d | d) | ⟨a, b'⟩ <;> rw [hxb] at hx
  · trivial
  · exact hx
  · exact h a b' hx

/-- What a generator yields is what it has given. -/
theorem given (hx : Yields ctx b x Q) :
    Yields ctx b x fun a b' => x ctx b = .ok (a, b') ∧ Q a b' := by
  unfold Yields at hx ⊢
  rcases hxb : x ctx b with (d | d) | ⟨a, b'⟩ <;> rw [hxb] at hx
  · trivial
  · exact hx
  · exact ⟨rfl, hx⟩

theorem of_pure {a : α} (h : Q a b) : Yields ctx b (pure a) Q := h

theorem decline (u : Unsupported) : Yields ctx b (decline u) Q := trivial

theorem defect {d : Defect} (h : d.isOfCode = false) :
    Yields ctx b (throw (.defect d)) Q := h

end Yields

/-! ## Generators that keep to the depths -/

/-- Code has been added that takes a depth of `d + m` to one of `d + n`. Its protected regions are of the kinds `P`. -/
structure Adds (ls : List Nat) (m n : Nat) (b : Builder) (D : Nat → Option Nat) (b' : Builder) (D' : Nat → Option Nat)
    (P : Tries := ⊤) : Prop where
  tracks : b'.Tracks D'
  grows : Builder.Grows ls b D b' D'
  nesting : b'.finallyNesting = b.finallyNesting
  shifts : Builder.Shifts m n b b'
  guards : ∀ d, (∀ e, b.depth = some e → d + m ≤ e) → b.Guards P d b'

theorem Adds.guards_trans {ls ls' : List Nat} {m k d : Nat} {b'' : Builder} {D'' : Nat → Option Nat}
    (h : Adds ls m n b D b' D' P) (h' : Adds ls' n k b' D' b'' D'' P) (hd : ∀ e, b.depth = some e → d + m ≤ e) :
    b.Guards P d b'' :=
  (h.guards d hd).trans (h'.guards d fun e he => by
    obtain ⟨e₀, he₀, heq⟩ := h.shifts e he
    have := hd e₀ he₀
    omega)

theorem Adds.trans {ls : List Nat} {m k : Nat} {b'' : Builder} {D'' : Nat → Option Nat}
    (h : Adds ls m n b D b' D' P) (h' : Adds ls n k b' D' b'' D'' P) : Adds ls m k b D b'' D'' P :=
  ⟨h'.tracks, h.grows.trans h'.grows, h'.nesting.trans h.nesting, h.shifts.trans h'.shifts,
    fun _ => h.guards_trans h'⟩

/-- A step that writes nothing and leaves the depth as it was. -/
theorem Adds.of_same (m : Nat) (ht : b'.Tracks D) (hg : Builder.Grows [] b D b' D)
    (hd : b'.depth = b.depth) (hn : b'.finallyNesting = b.finallyNesting) (hh : b'.handlers = b.handlers) :
    Adds [] m m b D b' D P :=
  ⟨ht, hg, hn, fun d h => ⟨d, hd ▸ h, rfl⟩, fun _ _ => .same hh hn hg.pc_le⟩

/-- The generator takes every depth of `d + m` to one of `d + n`. -/
def Emits (ctx : EmitContext) (m n : Nat) (x : EmitM α) (P : Tries := ⊤) : Prop :=
  ∀ b D, b.Tracks D → (∀ d, b.depth = some d → m ≤ d) → Yields ctx b x fun _ b' => ∃ D', Adds [] m n b D b' D' P

theorem Adds.le {ls : List Nat} {m : Nat} (h : Adds ls m n b D b' D' P)
    (hm : ∀ d, b.depth = some d → m ≤ d) : ∀ d, b'.depth = some d → n ≤ d := by
  intro d hd
  obtain ⟨d₀, h₀, e⟩ := h.shifts d hd
  have := hm d₀ h₀
  omega

namespace Emits

variable {m n : Nat} {x : EmitM α}

theorem bind {k : Nat} {f : α → EmitM β} (hx : Emits ctx m n x P)
    (hf : ∀ a, Emits ctx n k (f a) P) : Emits ctx m k (x >>= f) P := by
  intro b D hb hm
  refine (hx b D hb hm).bind fun a b₁ ⟨D₁, h₁⟩ => ?_
  exact (hf a b₁ D₁ h₁.tracks (h₁.le hm)).mono fun _ b₂ ⟨D₂, h₂⟩ => ⟨D₂, h₁.trans h₂⟩

theorem of_pure (m : Nat) (a : α) : Emits ctx m m (pure a) P :=
  fun _ D hb _ => .of_pure ⟨D, .of_same m hb .refl rfl rfl rfl⟩

theorem cast {m' n' : Nat} (h : Emits ctx m n x P) (hm : m = m') (hn : n = n') :
    Emits ctx m' n' x P := by
  subst hm hn
  exact h

theorem add (h : Emits ctx m n x P) (k : Nat) : Emits ctx (m + k) (n + k) x P := by
  intro b D hb hm
  refine (h b D hb fun d hd => by have := hm d hd; omega).mono fun _ b' ⟨D', h'⟩ => ?_
  exact ⟨D', h'.tracks, h'.grows, h'.nesting, h'.shifts.add k, fun d hd => h'.guards d fun e he => by
    have := hd e he
    omega⟩

/-- A step that only looks something up. -/
theorem bind_read {f : EmitContext → EmitM β} (hf : Emits ctx m n (f ctx) P) :
    Emits ctx m n (read >>= f) P :=
  fun b D hb hm => .bind_ok (read_apply ctx b) (hf b D hb hm)

/-- A generator in other surroundings. -/
theorem within {f : EmitContext → EmitContext} (h : Emits (f ctx) m n x P) :
    Emits ctx m n (withReader f x) P :=
  h

theorem decline (u : Unsupported) : Emits ctx m n (decline u : EmitM α) P :=
  fun _ _ _ _ => .decline u

theorem declined (d : Decline) : Emits ctx m n (throw (.declined d) : EmitM α) P :=
  fun _ _ _ _ => trivial

theorem defect {d : Defect} (h : d.isOfCode = false) :
    Emits ctx m n (throw (.defect d) : EmitM α) P :=
  fun _ _ _ _ => .defect h

theorem check {r : Except Defect α} (h : ∀ d, r = .error d → d.isOfCode = false) :
    Emits ctx m m (check r) P := by
  cases r with
  | ok a => exact of_pure m a
  | error d => exact defect (h d rfl)

theorem ite {c : Prop} [Decidable c] {y : EmitM α} (hx : c → Emits ctx m n x P)
    (hy : ¬ c → Emits ctx m n y P) : Emits ctx m n (if c then x else y) P := by
  split
  · exact hx ‹_›
  · exact hy ‹_›

/-- A step that is only taken under a condition. -/
theorem optional {c : Prop} [Decidable c] {x : EmitM PUnit} {y : EmitM α} (hx : Emits ctx m m x P)
    (hy : Emits ctx m n y P) : Emits ctx m n (if c then x >>= fun _ => y else y) P :=
  .ite (fun _ => hx.bind fun _ => hy) fun _ => hy

/-- An instruction that only takes and leaves values. If control never goes on after it, there is no
saying what it leaves. -/
theorem emit_to (i : Instr) (hi : i.isPlain = true) (n : Nat) (hn : i.endsFlow = false → n = i.pushes) :
    Emits ctx i.pops n (emit i) P := by
  intro b D ht hm
  have hplain : i.target? = none ∧ i ≠ .ret ∧ i ≠ .endFinally ∧ ∀ n, Builder.nestingAfter i n = n := by
    cases i <;> simp_all [Instr.isPlain, Instr.target?, Builder.nestingAfter]
  obtain ⟨hb, hr, hc, hsame⟩ := hplain
  obtain ⟨b', D', he, ht', hg, hd, hnest, -, hh⟩ := ht.emit hb (fun e => absurd e hc) fun d hd =>
    ⟨hm d hd, fun e => absurd e hr⟩
  have hn' : b'.finallyNesting = b.finallyNesting := by rw [hnest, hsame]
  refine .of_ok (build_ok he) ⟨D', ht', hg, hn', fun d' hd' => ?_, fun _ _ => .same hh hn' hg.pc_le⟩
  rw [hd, Builder.depthAfter] at hd'
  split at hd'
  · cases hd'
  · rename_i hf
    obtain ⟨d, hd₀, rfl⟩ := Option.map_eq_some_iff.1 hd'
    have := hm d hd₀
    have := hn (by simpa using hf)
    exact ⟨d, hd₀, by omega⟩

theorem emit (i : Instr) (hi : i.isPlain = true) : Emits ctx i.pops i.pushes (emit i) P :=
  emit_to i hi i.pushes fun _ => rfl

theorem newLocal (m : Nat) (ty : Ty) : Emits ctx m m (newLocal ty) P :=
  fun b D ht _ => .of_ok (newLocal_apply ty ctx b) ⟨D, .of_same m (ht.newLocal ty) (.newLocal ty) rfl rfl rfl⟩

/-- One value after the other. -/
theorem forM {γ : Type} {f : γ → EmitM Unit} : ∀ (m : Nat) (xs : List γ), (∀ x ∈ xs, Emits ctx 0 1 (f x) P) →
    Emits ctx m (m + xs.length) (xs.forM f) P
  | m, [], _ => of_pure m ()
  | m, x :: xs, h => by
    show Emits ctx m _ (f x >>= fun _ => xs.forM f) P
    have hx : Emits ctx m (m + 1) (f x) P := by
      simpa [Nat.add_comm] using (h x List.mem_cons_self).add m
    refine hx.bind fun _ => ?_
    have := forM (m + 1) xs fun y hy => h y (List.mem_cons_of_mem x hy)
    simpa [Nat.add_assoc, Nat.add_comm 1] using this

/-- A generator that always declines, before anything else. -/
theorem of_declines (h : ∀ b, ∃ d, x ctx b = .error (.declined d)) (f : α → EmitM β) :
    Emits ctx m n (x >>= f) P := by
  intro b D _ _
  obtain ⟨d, hd⟩ := h b
  unfold Yields
  rw [bind_apply, hd]
  trivial

theorem mapM_keep {γ δ : Type} {f : γ → EmitM δ} (m : Nat) : ∀ xs : List γ, (∀ x ∈ xs, Emits ctx m m (f x) P) →
    Emits ctx m m (xs.mapM f) P
  | [], _ => of_pure m _
  | x :: xs, h => by
    rw [List.mapM_cons]
    refine (h x List.mem_cons_self).bind fun _ => ?_
    exact (mapM_keep m xs fun y hy => h y (List.mem_cons_of_mem x hy)).bind fun _ => of_pure m _

/-- Steps that each leave the depth as it was. -/
theorem forM_keep {γ : Type} {f : γ → EmitM Unit} (m : Nat) : ∀ xs : List γ, (∀ x ∈ xs, Emits ctx m m (f x) P) →
    Emits ctx m m (xs.forM f) P
  | [], _ => of_pure m ()
  | x :: xs, h => by
    show Emits ctx m m (f x >>= fun _ => xs.forM f) P
    exact (h x List.mem_cons_self).bind fun _ => forM_keep m xs fun y hy => h y (List.mem_cons_of_mem x hy)

end Emits

/-! ## Branches -/

theorem le_of_branched {b₁ : Builder} (h : b₁.depth = b.depth.map fun d => d - 1) {k : Nat}
    (hk : ∀ d, b.depth = some d → k + 1 ≤ d) : ∀ d, b₁.depth = some d → k ≤ d := by
  intro d hd
  rw [h] at hd
  obtain ⟨d₀, hd₀, rfl⟩ := Option.map_eq_some_iff.1 hd
  have := hk d₀ hd₀
  omega

theorem guards_branched {kind : BranchKind} {l : Nat} {d : Option Nat}
    (h : Builder.Branched kind l d b D b' D') : b.Guards P n b' :=
  .same h.handlers h.nesting h.grows.pc_le

theorem guards_marked {l : Nat} {d : Option Nat} (h : Builder.Marked l d b D b') : b.Guards P n b' :=
  .same h.handlers h.nesting h.grows.pc_le

/-- A branch over code, with where the code starts and ends. -/
def Skips (ctx : EmitContext) (kind : BranchKind) (x : EmitM Unit) (l j : Nat) (b : Builder) (D : Nat → Option Nat)
    (b' : Builder) (P : Tries := ⊤) : Prop :=
  ∃ d b₁ b₂ D₁ D₂, Builder.Branched kind l d b D b₁ D₁ ∧ x ctx b₁ = .ok ((), b₂) ∧ Adds [] j j b₁ D₁ b₂ D₂ P ∧
    Builder.Marked l (b₂.depth.or b₁.depth) b₂ D₂ b'

/-- Two ways that meet again, with where each of them starts and ends. -/
def Forks (ctx : EmitContext) (kind : BranchKind) (x y : EmitM Unit) (l₁ l₂ j k : Nat) (b : Builder)
    (D : Nat → Option Nat) (b' : Builder) (P : Tries := ⊤) : Prop :=
  ∃ d d' b₁ b₂ b₃ b₄ b₅ D₁ D₂ D₃ D₅, Builder.Branched kind l₁ d b D b₁ D₁ ∧ x ctx b₁ = .ok ((), b₂) ∧
    Adds [] j k b₁ D₁ b₂ D₂ P ∧ Builder.Branched .always l₂ d' b₂ D₂ b₃ D₃ ∧ Builder.Marked l₁ b₁.depth b₃ D₃ b₄ ∧
    y ctx b₄ = .ok ((), b₅) ∧ Adds [] j k b₄ D₃ b₅ D₅ P ∧ Builder.Marked l₂ (b₅.depth.or b₂.depth) b₅ D₅ b'

/-- Code that a branch may skip; both ways leave the same depth. -/
theorem Yields.skip {j : Nat} (kind : BranchKind) {x : EmitM Unit} {l : Nat}
    (hk : (Instr.branch kind 0).pops = 1) (hx : Emits ctx j j x P) (ht : b.Tracks D)
    (hm : ∀ d, b.depth = some d → j + 1 ≤ d) (hl : b.labels[l]? = some {}) :
    Yields ctx b (do branch kind l; x; mark l) fun _ b' =>
      ∃ D', Adds [l] (j + 1) j b D b' D' P ∧ (∀ s, b'.labels[l]? = some s → s.pc.isSome) ∧
        Skips ctx kind x l j b D b' P := by
  have hkind : (Instr.branch kind 0).endsFlow = false := by cases kind <;> simp_all [Instr.pops, Instr.endsFlow]
  obtain ⟨b₁, D₁, h₁, hbranch⟩ :=
    ht.branch kind hl rfl (by rw [hk]; exact fun d hd => by have := hm d hd; omega) (by simp)
  have hdepth : b₁.depth = b.depth.map fun d => d - 1 := by
    rw [hbranch.depth, Builder.depthAfter, hkind, hk]
    rfl
  refine .bind_ok (build_ok h₁) ((hx b₁ D₁ hbranch.tracks (le_of_branched hdepth hm)).given.bind fun _ b₂ hafter => ?_)
  obtain ⟨hx₂, D₂, h₂⟩ := hafter
  -- the label has kept the depth of the branch, and the code in between has come back to it
  have hl₂ := h₂.grows.kept l _ (by simp) hbranch.labels.here
  obtain ⟨b₃, h₃, hmark⟩ := h₂.tracks.mark hl₂ rfl fun d e hd he => by
    obtain ⟨d₁, hb₁, e₁⟩ := h₂.shifts d hd
    rw [hdepth] at hb₁
    simp only [hk, Option.or_none, hb₁, Option.some.injEq] at he
    omega
  have hlabel : b₂.depth.or ((b.depth.map fun d => d - (Instr.branch kind 0).pops).or none) = b₂.depth.or b₁.depth := by
    rw [hdepth, hk, Option.or_none]
  have hskips : Skips ctx kind x l j b D b₃ P :=
    ⟨_, b₁, b₂, D₁, D₂, hbranch, hx₂, h₂, by rw [← hlabel]; exact hmark⟩
  have hguards : ∀ d, (∀ e, b.depth = some e → d + (j + 1) ≤ e) → b.Guards P d b₃ := fun d hd =>
    ((guards_branched hbranch).trans (h₂.guards d (le_of_branched hdepth hd))).trans (guards_marked hmark)
  obtain ⟨ht₃, hg₃, hd₃, hn₃, -, hr₃⟩ := hmark
  refine .of_ok (build_ok h₃)
    ⟨D₂, ⟨ht₃, (hbranch.grows.trans (h₂.grows.mono (by simp))).trans hg₃, ?_, fun d' hd' => ?_, hguards⟩, ?_, hskips⟩
  · rw [hn₃, h₂.nesting, hbranch.nesting]
  · rw [hd₃] at hd'
    have hcases : b₂.depth = some d' ∨ b₁.depth = some d' := by
      rcases hb₂ : b₂.depth with _ | d₂ <;> rw [hb₂] at hd'
      · exact .inr (by simpa [hdepth, hk] using hd')
      · exact .inl (by simpa using hd')
    have hb₁ : b₁.depth = some d' := by
      rcases hcases with hb₂ | hb₁
      · obtain ⟨d₁, hb₁, e₁⟩ := h₂.shifts d' hb₂
        rw [hb₁]
        congr 1
        omega
      · exact hb₁
    rw [hdepth] at hb₁
    obtain ⟨d₀, hd₀, rfl⟩ := Option.map_eq_some_iff.1 hb₁
    have := hm d₀ hd₀
    exact ⟨d₀, hd₀, by omega⟩
  · intro s hs
    rw [hr₃.here] at hs
    cases hs
    rfl

/-- Two ways that meet again with the same depth. -/
theorem Yields.fork {j k : Nat} (kind : BranchKind) {x y : EmitM Unit} {l₁ l₂ : Nat}
    (hk : (Instr.branch kind 0).pops = 1) (hx : Emits ctx j k x P) (hy : Emits ctx j k y P) (ht : b.Tracks D)
    (hm : ∀ d, b.depth = some d → j + 1 ≤ d) (hne : l₁ ≠ l₂) (hl₁ : b.labels[l₁]? = some {})
    (hl₂ : b.labels[l₂]? = some {}) :
    Yields ctx b (do branch kind l₁; x; branch .always l₂; mark l₁; y; mark l₂) fun _ b' =>
      ∃ D', Adds [l₁, l₂] (j + 1) k b D b' D' P ∧ (∀ l ∈ [l₁, l₂], ∀ s, b'.labels[l]? = some s → s.pc.isSome) ∧
        Forks ctx kind x y l₁ l₂ j k b D b' P := by
  have hkind : (Instr.branch kind 0).endsFlow = false := by cases kind <;> simp_all [Instr.pops, Instr.endsFlow]
  obtain ⟨b₁, D₁, h₁, hbranch⟩ :=
    ht.branch kind hl₁ rfl (by rw [hk]; exact fun d hd => by have := hm d hd; omega) (by simp)
  have hdepth : b₁.depth = b.depth.map fun d => d - 1 := by
    rw [hbranch.depth, Builder.depthAfter, hkind, hk]
    rfl
  have hj : ∀ d, b₁.depth = some d → j ≤ d := le_of_branched hdepth hm
  refine .bind_ok (build_ok h₁) ((hx b₁ D₁ hbranch.tracks hj).given.bind fun _ b₂ hleft => ?_)
  obtain ⟨hx₂, D₂, h₂⟩ := hleft
  have hl₁' : b₂.labels[l₁]? = some ⟨none, b₁.depth⟩ := by
    refine h₂.grows.kept l₁ _ (by simp) ?_
    rw [hbranch.labels.here, hdepth, hk]
    simp
  have hl₂' : b₂.labels[l₂]? = some {} :=
    h₂.grows.kept l₂ _ (by simp) (by rw [hbranch.labels.other l₂ (Ne.symm hne)]; exact hl₂)
  obtain ⟨b₃, D₃, h₃, hjump⟩ := h₂.tracks.branch .always hl₂' rfl (by simp [Instr.pops]) (by simp)
  have hnone : b₃.depth = none := hjump.depth
  refine .bind_ok (build_ok h₃) ?_
  obtain ⟨b₄, h₄, hmark⟩ := hjump.tracks.mark (by rw [hjump.labels.other l₁ hne]; exact hl₁') rfl (by simp [hnone])
  replace hmark : Builder.Marked l₁ b₁.depth b₃ D₃ b₄ := by rw [hnone, Option.none_or] at hmark; exact hmark
  refine .bind_ok (build_ok h₄)
    ((hy b₄ D₃ hmark.tracks (by rw [hmark.depth]; exact hj)).given.bind fun _ b₅ hright => ?_)
  obtain ⟨hy₅, D₅, h₅⟩ := hright
  have hl₂'' : b₅.labels[l₂]? = some ⟨none, b₂.depth⟩ := by
    refine h₅.grows.kept l₂ _ (by simp) ?_
    rw [hmark.labels.other l₂ (Ne.symm hne), hjump.labels.here]
    simp [Instr.pops]
  -- either way ends `k` above where both started
  have hx' : ∀ d, b₂.depth = some d → ∃ d₁, b₁.depth = some d₁ ∧ d + j = d₁ + k := h₂.shifts
  have hy' : ∀ d, b₅.depth = some d → ∃ d₁, b₁.depth = some d₁ ∧ d + j = d₁ + k := by
    intro d hd
    rw [← hmark.depth]
    exact h₅.shifts d hd
  obtain ⟨b₆, h₆, hjoin⟩ := h₅.tracks.mark hl₂'' rfl fun d e hd he => by
    obtain ⟨d₁, e₁, e₂⟩ := hy' d hd
    obtain ⟨d₁', e₁', e₂'⟩ := hx' e he
    rw [e₁] at e₁'
    cases e₁'
    omega
  have hforks : Forks ctx kind x y l₁ l₂ j k b D b₆ P :=
    ⟨_, _, b₁, b₂, b₃, b₄, b₅, D₁, D₂, D₃, D₅, hbranch, hx₂, h₂, hjump, hmark, hy₅, h₅, hjoin⟩
  have hguards : ∀ d, (∀ e, b.depth = some e → d + (j + 1) ≤ e) → b.Guards P d b₆ := fun d hd => by
    have hleft := (guards_branched hbranch).trans (h₂.guards d (le_of_branched hdepth hd))
    have hright := (guards_marked hmark).trans (h₅.guards d (by rw [hmark.depth]; exact le_of_branched hdepth hd))
    exact (hleft.trans (guards_branched hjump)).trans (hright.trans (guards_marked hjoin))
  obtain ⟨ht₆, hg₆, hd₆, hn₆, -, hr₆⟩ := hjoin
  have hsub : ∀ l, l = l₁ ∨ l = l₂ → [l] ⊆ [l₁, l₂] := by
    rintro l (rfl | rfl) <;> simp
  have hgrows : Builder.Grows [l₁, l₂] b D b₆ D₅ :=
    ((((hbranch.grows.mono (hsub _ (.inl rfl))).trans (h₂.grows.mono (by simp))).trans
      ((hjump.grows.mono (hsub _ (.inr rfl))).trans (hmark.grows.mono (hsub _ (.inl rfl))))).trans
        (h₅.grows.mono (by simp))).trans (hg₆.mono (hsub _ (.inr rfl)))
  refine .of_ok (build_ok h₆) ⟨D₅, ⟨ht₆, hgrows, ?_, fun d' hd' => ?_, hguards⟩, ?_, hforks⟩
  · rw [hn₆, h₅.nesting, hmark.nesting, hjump.nesting, h₂.nesting, hbranch.nesting]
  · rw [hd₆] at hd'
    have hcases : ∃ d₁, b₁.depth = some d₁ ∧ d' + j = d₁ + k := by
      rcases hb₅ : b₅.depth with _ | d₅ <;> rw [hb₅] at hd'
      · exact hx' d' (by simpa using hd')
      · exact hy' d' (by rw [hb₅]; simpa using hd')
    obtain ⟨d₁, hb₁, e₁⟩ := hcases
    rw [hdepth] at hb₁
    obtain ⟨d₀, hd₀, rfl⟩ := Option.map_eq_some_iff.1 hb₁
    have := hm d₀ hd₀
    exact ⟨d₀, hd₀, by omega⟩
  · intro l hl s hs
    rcases List.mem_cons.1 hl with rfl | hl
    · have hbound : b₅.labels[l]? = some ⟨some b₃.pc, b₁.depth⟩ := h₅.grows.kept l _ (by simp) hmark.labels.here
      rw [hr₆.other l hne, hbound] at hs
      cases hs
      rfl
    · obtain rfl := List.mem_singleton.1 hl
      rw [hr₆.here] at hs
      cases hs
      rfl

end EmitM

end ExprCompiler
