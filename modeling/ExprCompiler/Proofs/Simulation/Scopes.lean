/-
Code in the scope of new variables. A block keeps its variables in new locals, which start as zeros; a
catch clause keeps the exception. In the scope of the new variables, code simulates what it does with
them; outside, the new variables are gone and the others are as the code has left them.
-/
import ExprCompiler.Proofs.Simulation.Variables

namespace ExprCompiler

/-! ## Entering and leaving a scope -/

theorem EmitContext.slots_enter (ctx : EmitContext) (scope : List (Param × Nat)) (hidden : List Nat) :
    (ctx.enter scope hidden).slots = ctx.slots ++ scope.map fun (p, i) => (p, .localVar i) := by
  simp only [slots, enter, List.reverse_cons, List.flatten_append, List.flatten_singleton, List.map_append,
    List.append_assoc]
  rfl

/-- New locals are written; all else in the frame stays. -/
structure Frame.Enters (n : Nat) (f f' : Frame) : Prop where
  args : f'.args = f.args
  locals : ∀ j < n, f'.locals[j]? = f.locals[j]?
  size : f'.locals.size = f.locals.size
  pending : f'.pending = f.pending

/-- The locals of a scope are new and different from each other. -/
structure EmitContext.Fresh (scope : List (Param × Nat)) (hidden : List Nat) (n n' : Nat) : Prop where
  inside : ∀ v ∈ scope, n ≤ v.2 ∧ v.2 < n'
  apart : (scope.map Prod.snd).Nodup
  caught : ∀ i ∈ hidden, n ≤ i ∧ i < n' ∧ ∀ v ∈ scope, v.2 ≠ i

theorem Frame.var?_enters {n : Nat} {f f' : Frame} (h : f.Enters n f') (x : FrameVar)
    (hx : ∀ i, x = .localVar i → i < n) : f'.var? x = f.var? x := by
  cases x with
  | arg i => rw [Frame.var?, Frame.var?, h.args]
  | localVar i => exact h.locals i (hx i rfl)
  | closure i => rfl

variable {ctx : EmitContext} {b b₁ b' : Builder} {scope : List (Param × Nat)} {hidden : List Nat}

theorem EmitContext.mem_slots_enter {p : Param} {i : Nat} (h : (p, .localVar i) ∈ (ctx.enter scope hidden).slots) :
    (p, .localVar i) ∈ ctx.slots ∨ (p, i) ∈ scope := by
  rw [EmitContext.slots_enter, List.mem_append] at h
  refine h.imp_right fun h => ?_
  obtain ⟨v, hv, he⟩ := List.mem_map.1 h
  cases he
  exact hv

theorem EmitContext.Fits.enter (h : ctx.Fits b) (hfresh : EmitContext.Fresh scope hidden b.locals.size b₁.locals.size)
    (hle : b.locals.size ≤ b₁.locals.size) : (ctx.enter scope hidden).Fits b₁ where
  apart := by
    rw [EmitContext.slots_enter, List.map_append, List.nodup_append']
    refine ⟨h.apart, ?_, ?_⟩
    · have hmap : (scope.map fun (p, i) => (p, FrameVar.localVar i)).map Prod.snd =
          (scope.map Prod.snd).map FrameVar.localVar := by simp
      rw [hmap]
      exact hfresh.apart.map fun i j hij => by cases hij; rfl
    · intro x hx hx'
      obtain ⟨⟨p, y⟩, hp, rfl⟩ := List.mem_map.1 hx
      simp only [List.map_map, List.mem_map, Function.comp] at hx'
      obtain ⟨v, hv, rfl⟩ := hx'
      have hlt := h.locals p v.2 hp
      have hge := (hfresh.inside v hv).1
      omega
  locals p i hp := by
    rcases EmitContext.mem_slots_enter hp with hp | hp
    · exact (h.locals p i hp).trans_le hle
    · exact (hfresh.inside _ hp).2
  hidden i hi := by
    rcases List.mem_append.1 hi with hi | hi
    · obtain ⟨hge, hlt, hne⟩ := hfresh.caught i hi
      refine ⟨hlt, fun p hp => ?_⟩
      rcases EmitContext.mem_slots_enter hp with hp | hp
      · have := h.locals p i hp
        omega
      · exact hne _ hp rfl
    · obtain ⟨hlt, hne⟩ := h.hidden i hi
      refine ⟨hlt.trans_le hle, fun p hp => ?_⟩
      rcases EmitContext.mem_slots_enter hp with hp | hp
      · exact hne p hp
      · have := (hfresh.inside _ hp).1
        omega
  params := h.params
  few := h.few

theorem Frame.Keeps.leave {n m : Nat} {f f₁ f' : Frame} (h : f₁.Keeps (ctx.enter scope hidden) m f')
    (hf : f.Enters n f₁) (hle : n ≤ m) (hscope : ∀ v ∈ scope, n ≤ v.2) : f.Keeps ctx n f' where
  vars x hx hn := by
    refine (h.vars x (fun p hp => ?_) fun i hi => (hn i hi).trans_le hle).trans (Frame.var?_enters hf x hn)
    rw [EmitContext.slots_enter, List.mem_append] at hp
    rcases hp with hp | hp
    · exact hx p hp
    · obtain ⟨v, hv, he⟩ := List.mem_map.1 hp
      cases he
      have hlt := hn v.2 rfl
      have hge := hscope v hv
      omega
  locals := h.locals.trans hf.size

namespace Bridge

variable {B : Bridge} {α : Type} {n : Nat} {u : CodeUnit} {κ κ' : B.Stage} {handling caught : List Value}
  {f f₁ f' : Frame} {w : World} {vars : Activation} {extra : List (Param × Value)}

/-- Writes to new locals are no change of the variables. -/
theorem Corresponds.of_enters (h : B.Corresponds ctx κ handling f vars) (hfit : ctx.Fits b)
    (hf : f.Enters b.locals.size f₁) : B.Corresponds ctx κ handling f₁ vars where
  vars := by
    have hmem : ∀ s ∈ ctx.slots, f₁.var? s.2 = f.var? s.2 := by
      rintro ⟨p, x⟩ hs
      refine Frame.var?_enters hf x fun i hi => ?_
      subst hi
      exact hfit.locals p i hs
    refine ((List.forall₂_and_left _ _).2 ⟨hmem, h.vars⟩).imp fun s x ⟨hs, hname, v, hv, hvalue⟩ => ?_
    exact ⟨hname, v, hs.trans hv, hvalue⟩
  handling := by
    have hmem : ∀ i ∈ ctx.catchLocals, f₁.locals[i]? = f.locals[i]? := fun i hi => hf.locals i (hfit.hidden i hi).1
    refine ((List.forall₂_and_left _ _).2 ⟨hmem, h.handling⟩).imp fun i v ⟨hi, hv, ht⟩ => ⟨hi.trans hv, ht⟩

/-- The state in the scope of new variables. -/
theorem Corresponds.enter (h : B.Corresponds ctx κ handling f vars) (hfit : ctx.Fits b) (hf : f.Enters b.locals.size f₁)
    (hscope : List.Forall₂ (fun v x => x.1 = v.1 ∧ ∃ c, f₁.locals[v.2]? = some c ∧ B.value κ v.1.ty c x.2) scope extra)
    (hcaught : List.Forall₂ (fun i v => f₁.locals[i]? = some v ∧ B.thrown v) hidden caught) :
    B.Corresponds (ctx.enter scope hidden) κ (caught ++ handling) f₁ (vars ++ extra.toArray) where
  vars := by
    rw [EmitContext.slots_enter, Array.toList_append, List.toList_toArray]
    refine List.rel_append (h.of_enters hfit hf).vars ?_
    rw [List.forall₂_map_left_iff]
    exact hscope
  handling := List.rel_append hcaught (h.of_enters hfit hf).handling

/-- The state after the new variables are gone. -/
theorem Corresponds.leave {outer : Nat} (h : B.Corresponds (ctx.enter scope hidden) κ (caught ++ handling) f vars)
    (houter : outer = ctx.slots.length) (hcaught : hidden.length = caught.length) :
    B.Corresponds ctx κ handling f (vars.take outer) where
  vars := by
    have hvars := h.vars
    rw [EmitContext.slots_enter] at hvars
    have htake := List.forall₂_take ctx.slots.length hvars
    rw [List.take_left] at htake
    simpa [houter] using htake
  handling := by
    have hdrop := List.forall₂_drop hidden.length h.handling
    rw [show (ctx.enter scope hidden).catchLocals = hidden ++ ctx.catchLocals from rfl, List.drop_left] at hdrop
    rwa [hcaught, List.drop_left] at hdrop

/-- The outcome of code in the scope of new variables, as it is seen from outside. -/
theorem Outcome.leave {r : Except Stop α} {vars' : Activation} {wE' : World} {base : List Value}
    {Post : B.Stage → α → List Value → Prop} {outer : Nat}
    (h : B.Outcome (ctx.enter scope hidden) n u b₁ b' κ (caught ++ handling) f₁ w base Post (r, vars', wE'))
    (hadv : u.Advances B.machine ⟨b.pc, f, w⟩ ⟨b₁.pc, f₁, w⟩) (hf : f.Enters b.locals.size f₁)
    (hle : b.locals.size ≤ b₁.locals.size) (hscope : ∀ v ∈ scope, b.locals.size ≤ v.2)
    (houter : outer = ctx.slots.length) (hcaught : hidden.length = caught.length) :
    B.Outcome ctx n u b b' κ handling f w base Post (r, vars'.take outer, wE') := by
  rcases h with hexc | hends
  · exact .inl (hexc.imp_right fun ⟨stop, hM, hq⟩ => ⟨stop, hM, hq.of_advances hadv⟩)
  have hafter : ∀ {κ' f'}, B.After (ctx.enter scope hidden) b₁.locals.size κ κ' (caught ++ handling) f₁ f' vars' →
      B.After ctx b.locals.size κ κ' handling f f' (vars'.take outer) :=
    fun ha => ⟨ha.stage, ha.corresponds.leave houter hcaught, ha.keeps.leave hf hle hscope⟩
  rcases r with stop | a
  · obtain ⟨κ', f', w', pc, stop', hfail, hstop⟩ := hends
    refine .inr ⟨κ', f', w', pc, stop', ⟨hafter hfail.after, hfail.stops.of_advances hadv, hfail.inside,
      hfail.stack, ?_, hfail.unhandled⟩, hstop⟩
    rw [← hf.pending]
    exact hfail.pending
  · obtain ⟨κ', f', w', vs, harr, hlen, hpost, hw⟩ := hends
    exact .inr ⟨κ', f', w', vs, ⟨hafter harr.after, hadv.trans harr.advances, harr.stack, harr.pending.trans hf.pending,
      harr.depth⟩, hlen, hpost, hw⟩

end Bridge

/-! ## Blocks -/

/-- The code of a new variable. -/
theorem Emit.fresh_inv {p : Param} {v : Param × Nat} (h : Emit.fresh p ctx b = .ok (v, b')) :
    v = (p, b.locals.size % Nat.pow 2 16) ∧
      (b.newLocal p.ty).2.Writes b' [.default p.ty, .storeLocal (b.locals.size % Nat.pow 2 16)] := by
  obtain ⟨i, b₁, hnew, h⟩ := EmitM.bind_eq_ok h
  rw [EmitM.newLocal_apply] at hnew
  cases hnew
  obtain ⟨⟨⟩, b₂, hdefault, h⟩ := EmitM.bind_eq_ok h
  obtain ⟨⟨⟩, b₃, hstore, hpure⟩ := EmitM.bind_eq_ok h
  cases hpure
  exact ⟨rfl, (EmitM.writes_emit hdefault).append (EmitM.writes_emit hstore)⟩

/-- A new variable starts as the zero of its type. -/
theorem Emit.fresh_runs {u : CodeUnit} {p : Param} {v : Param × Nat} {f : Frame} (fc : FrameContext) (w : World)
    (h : Emit.fresh p ctx b = .ok (v, b₁)) (hu : b₁.Links u) (hsize : f.locals.size = u.locals.size) :
    v = (p, b.locals.size) ∧ b₁.locals.size = b.locals.size + 1 ∧
      u.Advances fc ⟨b.pc, f, w⟩ ⟨b₁.pc, { f with locals := f.locals.setIfInBounds b.locals.size p.ty.zero }, w⟩ := by
  obtain ⟨rfl, hw⟩ := Emit.fresh_inv h
  have hlocals : b₁.locals.size = b.locals.size + 1 := by
    rw [hw.locals]
    simp [Builder.newLocal]
  have hle : b₁.locals.size ≤ u.locals.size := by simpa using hu.locals.length_le
  have hfew := hu.few
  have hmod : b.locals.size % Nat.pow 2 16 = b.locals.size := Nat.mod_eq_of_lt (by omega)
  rw [hmod] at hw
  have hrun := (hw.straight hu (by simp)).run fc _ f w
  have heffect : CodeUnit.effects [.default p.ty, .storeLocal b.locals.size] fc (f, w) =
      (.ok (), { f with locals := f.locals.setIfInBounds b.locals.size p.ty.zero }, w) := by
    have hdefault : MachineM.effect (.default p.ty) fc (f, w) = (.ok (), { f with stack := p.ty.zero :: f.stack }, w) :=
      rfl
    rw [CodeUnit.effects_cons, Act.bind_ok hdefault, CodeUnit.effects_cons]
    have hx : (Frame.var? { f with stack := p.ty.zero :: f.stack } (.localVar b.locals.size)).isSome := by
      simp [Frame.var?]
      omega
    rw [Act.bind_ok (MachineM.effect_store (.inr ⟨_, rfl, rfl⟩) hx rfl)]
    rfl
  rw [heffect] at hrun
  refine ⟨by rw [hmod], hlocals, ?_⟩
  have hpc := hw.pc
  rw [show b₁.pc = (b.newLocal p.ty).2.pc + [Instr.default p.ty, .storeLocal b.locals.size].length from hpc]
  exact hrun

/-- New variables start as the zeros of their types, in new locals one after the other. -/
theorem Emit.declare_runs {u : CodeUnit} (fc : FrameContext) (w : World) : ∀ (vars : List Param) {b b₁ : Builder}
    {D : Nat → Option Nat} {scope : List (Param × Nat)} {f : Frame}, b.Tracks D →
    Emit.declare vars ctx b = .ok (scope, b₁) → b₁.Links u → f.locals.size = u.locals.size →
    scope = vars.zipIdx b.locals.size ∧ b₁.locals.size = b.locals.size + vars.length ∧
      (b.depth.isSome → b₁.depth.isSome) ∧
      ∃ f₁, u.Advances fc ⟨b.pc, f, w⟩ ⟨b₁.pc, f₁, w⟩ ∧ f.Enters b.locals.size f₁ ∧ f₁.stack = f.stack ∧
        ∀ v ∈ scope, f₁.locals[v.2]? = some v.1.ty.zero
  | [], b, b₁, D, scope, f, _, h, _, _ => by
    cases h
    exact ⟨rfl, rfl, fun h => h, f, .refl, ⟨rfl, fun _ _ => rfl, rfl, rfl⟩, rfl, by simp⟩
  | p :: ps, b, b₁, D, scope, f, ht, h, hu, hsize => by
    rw [Emit.declare, List.mapM_cons] at h
    obtain ⟨v, b₂, hv, h⟩ := EmitM.bind_eq_ok h
    obtain ⟨vs, b₃, hvs, hpure⟩ := EmitM.bind_eq_ok h
    cases hpure
    obtain ⟨D₂, h₂⟩ := (Emit.emits_fresh (P := ⊤) p b D ht (by simp)).result hv
    obtain ⟨D₁, h₁⟩ := (Emit.emits_declare (P := ⊤) ps b₂ D₂ h₂.tracks (by simp)).result hvs
    obtain ⟨rfl, hlocals₂, hadv₂⟩ := Emit.fresh_runs fc w hv (hu.mono h₁.grows (by simp)) hsize
    have hflow := (Emit.fresh_inv hv).2.flow
    have hle : b₁.locals.size ≤ u.locals.size := by simpa using hu.locals.length_le
    have hle₂ : b₂.locals.size ≤ b₁.locals.size := by simpa using h₁.grows.locals.length_le
    obtain ⟨hscope, hlocals₁, hsome, f₁, hadv₁, hf₁, hstack₁, hzeros⟩ :=
      Emit.declare_runs fc w ps (f := { f with locals := f.locals.setIfInBounds b.locals.size p.ty.zero })
        h₂.tracks hvs hu (by simpa using hsize)
    refine ⟨?_, ?_, fun hb => hsome (hflow (by simp [Instr.endsFlow]) hb), f₁, hadv₂.trans hadv₁, ?_, hstack₁, ?_⟩
    · rw [List.zipIdx_cons, hscope, hlocals₂]
    · rw [hlocals₁, hlocals₂, List.length_cons]
      omega
    · refine ⟨hf₁.args, fun j hj => ?_, by simpa using hf₁.size, hf₁.pending⟩
      rw [hf₁.locals j (by omega)]
      exact Array.getElem?_setIfInBounds_ne (by omega)
    · intro v hv
      rcases List.mem_cons.1 hv with rfl | hv
      · rw [hf₁.locals _ (by simp only; omega)]
        simp [show b.locals.size < f.locals.size by omega]
      · exact hzeros v hv

namespace Bridge

variable {B : Bridge} {α : Type} {n : Nat} {x : EmitM Unit} {e : EvalM α} {Post : B.Stage → α → List Value → Prop}

/-- Code in the scope of new variables, which start as zeros. -/
theorem Sim.block {vars : List Param} (hzero : ∀ p ∈ vars, ∀ κ, B.value κ p.ty p.ty.zero p.ty.zero)
    (hx : ∀ scope, EmitM.Emits (ctx.enter scope []) 0 n x)
    (h : ∀ scope : List (Param × Nat), scope.map Prod.fst = vars →
      B.Sim (ctx.enter scope []) 0 n (fun _ vs => vs = []) x e Post) :
    B.Sim ctx 0 n (fun _ vs => vs = []) (do
      let scope ← Emit.declare vars
      Emit.within scope x) (EvalM.declaring vars e) Post where
  emits := (Emit.emits_declare vars).bind fun scope => .within (hx scope)
  runs {b b' D u} ht hfit hpast hrun hlink κ handling f own w wE vs base hready hstack hlen hvs := by
    obtain ⟨scope, b₁, hdeclare, hbody⟩ := EmitM.bind_eq_ok hrun
    obtain ⟨D₁, h₁⟩ := (Emit.emits_declare (P := ⊤) vars b D ht (by simp)).result hdeclare
    obtain ⟨D₂, h₂⟩ := (hx scope b₁ D₁ h₁.tracks (by simp)).result hbody
    have hlink₁ : b₁.Links u := hlink.mono h₂.grows (by simp)
    obtain ⟨hscope, hlocals, hsome, f₁, hadv, hf₁, hstack₁, hzeros⟩ :=
      Emit.declare_runs B.machine w vars ht hdeclare hlink₁ hready.locals
    subst hvs
    have hfresh : EmitContext.Fresh scope [] b.locals.size b₁.locals.size := by
      subst hscope
      refine ⟨fun v hv => ?_, ?_, by simp⟩
      · obtain ⟨hge, hlt, -⟩ := List.mem_zipIdx hv
        exact ⟨hge, by omega⟩
      · rw [List.zipIdx_map_snd]
        exact List.nodup_range'
    have hdepth₁ : b₁.depth = some f₁.stack.length := by
      obtain ⟨d, hd⟩ := Option.isSome_iff_exists.1 (hsome (by rw [hready.depth]; rfl))
      obtain ⟨d₀, hd₀, hsum⟩ := h₁.shifts d hd
      rw [hready.depth] at hd₀
      cases hd₀
      rw [hd, hstack₁]
      congr 1
    have hcorr : B.Corresponds (ctx.enter scope []) κ ([] ++ handling) f₁
        (own ++ (vars.map fun p => (p, p.ty.zero)).toArray) := by
      refine hready.corresponds.enter hfit hf₁ ?_ .nil
      have hvars : vars = scope.map Prod.fst := by simp [hscope]
      have hmem : ∀ v ∈ scope, v.1 ∈ vars := fun v hv => hvars ▸ List.mem_map_of_mem hv
      rw [hvars, List.map_map, List.forall₂_map_right_iff, List.forall₂_same]
      exact fun v hv => ⟨rfl, _, hzeros v hv, hzero v.1 (hmem v hv) κ⟩
    have hready₁ : B.Ready (ctx.enter scope []) u b₁ κ handling f₁
        (own ++ (vars.map fun p => (p, p.ty.zero)).toArray) w wE :=
      ⟨hdepth₁, by rw [hf₁.pending, hready.nesting, h₁.nesting], by rw [hf₁.size, hready.locals], hcorr, hready.world⟩
    have hout := (h scope (by simp [hscope])).runs h₁.tracks (hfit.enter hfresh (by omega)) (hpast.mono h₁.grows) hbody
      hlink hready₁ (hstack₁.trans hstack) rfl rfl
    rw [← List.nil_append handling] at hout
    rw [EvalM.declaring, EvalM.within_apply]
    refine Outcome.leave hout hadv hf₁ (by omega) (fun v hv => (hfresh.inside v hv).1) ?_ rfl
    simpa using hready.corresponds.vars.length_eq.symm

end Bridge

end ExprCompiler
