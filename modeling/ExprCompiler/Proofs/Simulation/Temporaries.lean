/-
Values kept in new locals. A copy of a value goes into a local that no variable has, stays there while other
code runs, and is read back after it.
-/
import ExprCompiler.Proofs.Simulation.Nodes

namespace ExprCompiler

variable {ctx : EmitContext} {b b₁ b' : Builder} {n : Nat}

/-! ## New locals -/

theorem Frame.Keeps.of_enters {f f₁ : Frame} (h : f.Enters n f₁) : f.Keeps ctx n f₁ where
  vars x _ hx := Frame.var?_enters h x hx
  locals := h.size

theorem Frame.enters_setLocal {i : Nat} (f : Frame) (v : Value) (hi : n ≤ i) :
    f.Enters n { f with locals := f.locals.setIfInBounds i v } where
  args := rfl
  locals j hj := Array.getElem?_setIfInBounds_ne (by omega)
  size := by simp
  pending := rfl

/-- The number of a new local, in a unit that has no more locals than it can number. -/
theorem Builder.newLocal_index {u : CodeUnit} (ty : Ty) (hu : b'.Links u)
    (hle : (b.newLocal ty).2.locals.size ≤ b'.locals.size) :
    (b.newLocal ty).1 = b.locals.size ∧ b.locals.size < u.locals.size := by
  have hsize : (b.newLocal ty).2.locals.size = b.locals.size + 1 := by simp [Builder.newLocal]
  have hlocals : b'.locals.size ≤ u.locals.size := by simpa using hu.locals.length_le
  have hfew := hu.few
  refine ⟨?_, by omega⟩
  show b.locals.size % Nat.pow 2 16 = b.locals.size
  exact Nat.mod_eq_of_lt (by omega)

/-- The depth after code that control runs through. -/
theorem EmitM.Adds.depth {ls : List Nat} {m d d' : Nat} {D D' : Nat → Option Nat} (h : EmitM.Adds ls m n b D b' D')
    (hs : b'.depth.isSome) (hd : b.depth = some d) (hsum : d' + m = d + n) : b'.depth = some d' := by
  obtain ⟨d₁, hd₁⟩ := Option.isSome_iff_exists.1 hs
  obtain ⟨d₀, hd₀, hsum₁⟩ := h.shifts d₁ hd₁
  rw [hd] at hd₀
  cases hd₀
  rw [hd₁]
  congr 1
  omega

/-- A local that is new where code starts is none of the variables that the code may change. -/
theorem Frame.Keeps.local {i : Nat} {f f' : Frame} (h : f.Keeps ctx b₁.locals.size f') (hfit : ctx.Fits b)
    (hi : b.locals.size ≤ i) (hlt : i < b₁.locals.size) : f'.locals[i]? = f.locals[i]? := by
  refine h.vars (.localVar i) (fun p hp => ?_) fun j hj => ?_
  · have := hfit.locals p i hp
    omega
  · cases hj
    exact hlt

namespace Bridge

open EmitM

variable {B : Bridge} {β : Type} {ty ty' : Ty} {usage : Usage} {below : List (Ty × Value)} {store : EmitM Unit}
  {e : EvalM β} {a : Value}

theorem emits_keep (m : Nat) (usage : Usage) (ty : Ty) : EmitM.Emits ctx (m + 1) (m + 1) (keep usage ty) := by
  cases usage with
  | discard => exact .of_pure _ _
  | value =>
    refine EmitM.Emits.bind (.newLocal _ ty) fun i => EmitM.Emits.bind (n := m + 2) ?_ fun _ =>
      EmitM.Emits.bind (n := m + 1) ?_ fun _ => .of_pure _ _
    · exact ((EmitM.Emits.emit .dup rfl).add m).cast (Nat.add_comm 1 m) (Nat.add_comm 2 m)
    · exact ((EmitM.Emits.emit (.storeLocal i) rfl).add (m + 1)).cast (Nat.add_comm 1 (m + 1)) (Nat.zero_add _)

theorem keep_inv {temp : Option Nat} (h : keep .value ty ctx b = .ok (temp, b₁)) :
    temp = some (b.newLocal ty).1 ∧ (b.newLocal ty).2.Writes b₁ [.dup, .storeLocal (b.newLocal ty).1] := by
  obtain ⟨i, c, hnew, h⟩ := EmitM.bind_eq_ok h
  rw [EmitM.newLocal_apply] at hnew
  cases hnew
  obtain ⟨⟨⟩, c₁, hdup, h⟩ := EmitM.bind_eq_ok h
  obtain ⟨⟨⟩, c₂, hstore, hpure⟩ := EmitM.bind_eq_ok h
  cases hpure
  exact ⟨rfl, (EmitM.writes_emit hdup).append (EmitM.writes_emit hstore)⟩

/-- A copy of the topmost value has gone into a new local. -/
theorem keep_runs {u : CodeUnit} {temp : Option Nat} {f : Frame} {v : Value} {vs : List Value} (fc : FrameContext)
    (w : World) (h : keep .value ty ctx b = .ok (temp, b₁)) (hu : b₁.Links u) (hsize : f.locals.size = u.locals.size)
    (hst : f.stack = v :: vs) :
    temp = some b.locals.size ∧ b₁.locals.size = b.locals.size + 1 ∧ (b.depth.isSome → b₁.depth.isSome) ∧
      u.Advances fc ⟨b.pc, f, w⟩ ⟨b₁.pc, { f with locals := f.locals.setIfInBounds b.locals.size v }, w⟩ := by
  obtain ⟨rfl, hw⟩ := keep_inv h
  obtain ⟨hindex, hlt⟩ := Builder.newLocal_index ty hu (by rw [hw.locals])
  rw [hindex] at hw ⊢
  have hrun := (hw.straight hu (by simp)).run fc _ f w
  have hdup' : MachineM.effect .dup fc (f, w) = (.ok (), { f with stack := v :: v :: vs }, w) :=
    MachineM.shuffles_dup v f w vs hst
  have hx : (Frame.var? { f with stack := v :: v :: vs } (.localVar b.locals.size)).isSome := by
    simp [Frame.var?]
    omega
  have heffect : CodeUnit.effects [.dup, .storeLocal b.locals.size] fc (f, w) =
      (.ok (), { f with locals := f.locals.setIfInBounds b.locals.size v }, w) := by
    rw [CodeUnit.effects_cons, Act.bind_ok hdup', CodeUnit.effects_cons,
      Act.bind_ok (MachineM.effect_store (.inr ⟨_, rfl, rfl⟩) hx rfl)]
    simp only [Frame.setVar, ← hst]
    rfl
  rw [heffect] at hrun
  refine ⟨rfl, by rw [hw.locals]; simp [Builder.newLocal], hw.flow (by simp [Instr.endsFlow]), ?_⟩
  rw [hw.pc]
  exact hrun

/-- A local is read back. -/
theorem restore_runs {u : CodeUnit} {i : Nat} {f : Frame} {v : Value} (fc : FrameContext) (w : World)
    (h : restore (some i) ctx b = .ok ((), b₁)) (hu : b₁.Links u) (hi : f.locals[i]? = some v) :
    (b.depth.isSome → b₁.depth.isSome) ∧
      u.Advances fc ⟨b.pc, f, w⟩ ⟨b₁.pc, { f with stack := v :: f.stack }, w⟩ := by
  have hload : emit (.loadLocal i) ctx b = .ok ((), b₁) := h
  have hw := EmitM.writes_emit hload
  have hrun := (hw.straight hu (by simp)).run fc _ f w
  rw [show CodeUnit.effects [.loadLocal i] = MachineM.effect (.loadLocal i) from bind_pure_unit,
    MachineM.effect_load (.inr ⟨i, rfl, rfl⟩) hi] at hrun
  refine ⟨hw.flow (by simp [Instr.endsFlow]), ?_⟩
  rw [hw.pc]
  exact hrun

/-- A value is stored, and is left if it is wanted. -/
theorem Code.storeBy (usage : Usage) (ty : Ty) (hs : B.Code ctx ((ty', a) :: below) 0 store e fun _ => []) :
    B.Code ctx ((ty', a) :: below) usage.count (Emit.storeBy store ty usage) (e >>= fun _ => pure a)
      (usage.leaves ty') := by
  cases usage with
  | discard =>
    have hcode : Emit.storeBy store ty .discard = store := by
      simp [Emit.storeBy, keep, restore]
    rw [hcode]
    exact Sim.map hs (fun _ => a) fun κ _ vs hvs => hvs
  | value =>
    have hstores : EmitM.Emits ctx (below.length + 1) 0 store := hs.emits
    refine ⟨Emit.emits_storeBy hstores ty .value, ?_⟩
    intro b b' D u ht hfit hpast hrun hlink κ handling f vars w wE vs base hready hstack hlen hpre
    obtain ⟨temp, b₁, hkeep, hrest⟩ := EmitM.bind_eq_ok hrun
    obtain ⟨⟨⟩, b₂, hstore, hload⟩ := EmitM.bind_eq_ok hrest
    rcases hpre with _ | ⟨hv, hus⟩
    rename_i v us
    have hst : f.stack = v :: (us ++ base) := hstack
    have hm := Sim.le_depth hready hstack hlen
    obtain ⟨D₁, h₁⟩ := (emits_keep below.length .value ty b D ht hm).result hkeep
    obtain ⟨D₂, h₂⟩ := (hstores b₁ D₁ h₁.tracks (h₁.le hm)).result hstore
    have hrestore : ∀ i, EmitM.Emits ctx 0 1 (restore (some i)) := fun i => .emit (.loadLocal i) rfl
    obtain ⟨rfl, -⟩ := keep_inv hkeep
    obtain ⟨D₃, h₃⟩ := (hrestore _ b₂ D₂ h₂.tracks (by simp)).result hload
    have hlink₂ : b₂.Links u := hlink.mono h₃.grows (by simp)
    have hlink₁ : b₁.Links u := hlink₂.mono h₂.grows (by simp)
    obtain ⟨hi, hlocals, hsome, hadv⟩ := keep_runs B.machine w hkeep hlink₁ hready.locals hst
    rw [hi] at hload
    -- the copy is in a local that is none of the variables
    have henters := f.enters_setLocal v (le_refl b.locals.size)
    have hcorr := hready.corresponds.of_enters hfit henters
    have hdepth₁ : b₁.depth = some f.stack.length :=
      h₁.depth (hsome (by rw [hready.depth]; rfl)) hready.depth rfl
    have hready₁ : B.Ready ctx u b₁ κ handling { f with locals := f.locals.setIfInBounds b.locals.size v } vars w wE :=
      ⟨hdepth₁, by rw [h₁.nesting]; exact hready.nesting, by simpa using hready.locals, hcorr, hready.world⟩
    have harrived : Arrived B ctx u b b₁ κ κ handling f { f with locals := f.locals.setIfInBounds b.locals.size v } w w
        vars := ⟨⟨le_rfl, hcorr, .of_enters henters⟩, hadv, rfl, by omega⟩
    have hout := hs.runs h₁.tracks (hfit.mono h₁.grows) (hpast.mono h₁.grows) hstore hlink₂ hready₁ hstack hlen
      (.cons hv hus)
    refine Outcome.after_run (hout.bind h₂.grows h₃.grows ?_) harrived
    rintro κ₂ f₂ w₂ vs₂ c vars₂ wE₂ harr - hnil hw₂
    cases hnil
    have hcopy : f₂.locals[b.locals.size]? = some v := by
      rw [harr.after.keeps.local hfit le_rfl (by omega)]
      have hle : b₁.locals.size ≤ u.locals.size := by simpa using hlink₁.locals.length_le
      simp [hready.locals, show b.locals.size < u.locals.size by omega]
    obtain ⟨hsome₃, hadv₃⟩ := restore_runs B.machine w₂ hload hlink hcopy
    refine .inr ⟨κ₂, { f₂ with stack := v :: f₂.stack }, w₂, [v], ⟨?_, hadv₃, ?_, rfl, ?_⟩, rfl, ?_, hw₂⟩
    · exact harr.after.corresponds.after le_rfl rfl rfl
    · exact congrArg (v :: ·) harr.stack
    · exact h₃.depth (hsome₃ (by rw [harr.depth]; rfl)) harr.depth rfl
    · exact .cons (B.value_mono harr.after.stage hv) .nil

end Bridge

end ExprCompiler
