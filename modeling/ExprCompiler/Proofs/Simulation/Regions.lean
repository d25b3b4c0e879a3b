/-
Protected regions as they run. A handler starts with the stack and the finally bodies of the region's start;
a clause keeps the exception in new locals and runs its body; the body and the clauses end by storing their
value in the region's local and going to the region's end.
-/
import ExprCompiler.Proofs.Code.Edits
import ExprCompiler.Proofs.Emit.Region
import ExprCompiler.Proofs.Simulation.Temporaries

namespace ExprCompiler

/-! ## Unwinding -/

theorem Frame.bottom_of_suffix {α : Type} {xs ys : List α} (h : ys <:+ xs) : Frame.bottom xs ys.length = ys := by
  obtain ⟨t, rfl⟩ := h
  simp [Frame.bottom]

/-- The first of the handlers that takes an exception, where it is known which of them do not. -/
theorem Handler.find?_eq {hs us vs : List Handler} {e : Handler} {pc : Nat} {v : Value} (hu : hs = us ++ e :: vs)
    (he : e.accepts pc v = true) (hus : ∀ e' ∈ us, e'.accepts pc v = false) :
    (hs.find? fun e => e.accepts pc v) = some e := by
  rw [List.find?_eq_some_iff_append]
  exact ⟨he, us, vs, hu, fun e' h => by simp [hus e' h]⟩

variable {ctx : EmitContext} {b : Builder}

theorem Frame.Keeps.mono {n m : Nat} {f f' : Frame} (h : f.Keeps ctx m f') (hle : n ≤ m) :
    f.Keeps ctx n f' :=
  ⟨fun x hx hn => h.vars x hx fun i hi => (hn i hi).trans_le hle, h.locals⟩

theorem EmitM.of_bind_ok {α β : Type} {x : EmitM α} {f : α → EmitM β} {a : α} {c : β} {b₁ b' : Builder}
    (hx : x ctx b = .ok (a, b₁)) (h : (x >>= f) ctx b = .ok (c, b')) : f a ctx b₁ = .ok (c, b') := by
  rw [EmitM.bind_apply, hx] at h
  exact h

theorem Builder.addHandlers_eq (es : List Handler) (b : Builder) :
    es.foldl Builder.addHandler b = { b with handlers := b.handlers ++ es.toArray } := by
  induction es generalizing b with
  | nil => simp
  | cons e es ih =>
    rw [List.foldl_cons, ih]
    simp [Builder.addHandler]

theorem Builder.Links.of_addHandler {e : Handler} {u : CodeUnit} (h : (b.addHandler e).Links u) : b.Links u :=
  ⟨fun pc i hw => h.plain pc i (hw.of_eq rfl rfl rfl), fun pc kind l s p hw =>
    h.branch pc kind l s p (hw.of_eq rfl rfl rfl),
    fun pc kind l hw => h.jump pc kind l (hw.of_eq rfl rfl rfl), .trans (by simp [Builder.addHandler]) h.handlers,
      h.locals,
    h.few⟩

theorem Builder.Links.of_addHandlers {es : List Handler} {u : CodeUnit}
    (h : (es.foldl Builder.addHandler b).Links u) : b.Links u := by
  induction es generalizing b with
  | nil => exact h
  | cons e es ih => exact (ih h).of_addHandler

/-- A failure that no further handler takes. -/
theorem Bridge.Fails.addHandlers {B : Bridge} {u : CodeUnit} {b₁ : Builder} {κ κ' : B.Stage}
    {handling : List Value} {f f' : Frame} {w w' : World} {vars' : Activation} {base : List Value} {pc : Nat}
    {stop : Stop} (h : B.Fails ctx u b b₁ κ κ' handling f f' w w' vars' base pc stop) {es : List Handler}
    (hes : ∀ v, stop = .thrown v → ∀ e ∈ es, e.accepts pc v = false) :
    B.Fails ctx u b (es.foldl Builder.addHandler b₁) κ κ' handling f f' w w' vars' base pc stop := by
  rw [Builder.addHandlers_eq]
  refine { h with inside := h.inside, unhandled := fun v hv e he => ?_ }
  rcases Array.mem_append.1 he with he | he
  · exact h.unhandled v hv e he
  · exact hes v hv e (by simpa using he)

namespace Emit

/-! ## The region's end -/

/-- Control comes to a branch to the region's end. -/
def Region.Reached (r : Region) (b : Builder) : Prop :=
  ∃ D p d, b.Tracks D ∧ p < b.pc ∧ D p = some d ∧ b.Written p (.branch .always r.after)

variable {r : Region} {f : Frame} {base : List Value} {D D' : Nat → Option Nat}

theorem Region.Reached.mono {b' : Builder} (h : r.Reached b)
    (hg : ∀ D, b.Tracks D → ∃ ls D', b'.Tracks D' ∧ Builder.Grows ls b D b' D') : r.Reached b' := by
  obtain ⟨D, p, d, ht, hp, hD, hdraft⟩ := h
  obtain ⟨ls, D', ht', hg'⟩ := hg D ht
  have hle := hg'.pc_le
  refine ⟨D', p, d, ht', by omega, ?_, hg'.written _ _ hdraft⟩
  rcases hg'.reached p d (.inl ⟨hp, hD⟩) with ⟨-, hD'⟩ | ⟨hpc, -⟩
  · exact hD'
  · omega

/-- Where control comes to a branch, the label of the branch has a depth. -/
theorem Region.Reached.depth (h : r.Reached b) (ha : r.Awaits b) :
    b.labels[r.after]? = some ⟨none, some r.stackDepth⟩ := by
  obtain ⟨D, p, d, ht, hp, hD, hdraft⟩ := h
  obtain ⟨draft, hdraft', hleads⟩ := ht.code p d hp hD
  obtain ⟨x, hx, hall⟩ := ha
  -- the label is not bound, so that the branch was written for no other
  obtain rfl := hdraft.eq_of_waits (by rw [Builder.target?, hx]; rfl) hdraft'
  obtain ⟨s, hs, hdepth⟩ := hleads.target .always r.after rfl
  rw [hx] at hs
  cases hs
  simp only at hdepth
  rw [hx, hdepth, hall _ hdepth]

/-! ## Results -/

open EmitM

variable {ctx : EmitContext} {b b₁ b' : Builder} {u : CodeUnit}

/-- The topmost value goes into a local. -/
theorem storeLocal_runs {i n : Nat} {v : Value} (fc : FrameContext) (w : World)
    (h : emit (.storeLocal i) ctx b = .ok ((), b₁)) (hu : b₁.Links u) (hi : i < f.locals.size) (hn : n ≤ i)
    (hst : f.stack = v :: base) :
    ∃ f', u.Advances fc ⟨b.pc, f, w⟩ ⟨b₁.pc, f', w⟩ ∧ f.Enters n f' ∧ f'.stack = base ∧
      f'.locals = f.locals.setIfInBounds i v ∧ f'.locals[i]? = some v ∧ (b.depth.isSome → b₁.depth.isSome) := by
  have hw := EmitM.writes_emit h
  have hrun := (hw.straight hu (by simp)).run fc _ f w
  have hx : (f.var? (.localVar i)).isSome := by simpa [Frame.var?] using hi
  rw [show CodeUnit.effects [.storeLocal i] = MachineM.effect (.storeLocal i) from bind_pure_unit,
    MachineM.effect_store (.inr ⟨i, rfl, rfl⟩) hx hst] at hrun
  refine ⟨{ f.setVar (.localVar i) v with stack := base }, by rw [hw.pc]; exact hrun, ?_, rfl, rfl, ?_,
    hw.flow (by simp [Instr.endsFlow])⟩
  · exact ⟨rfl, fun j hj => Array.getElem?_setIfInBounds_ne (by omega), by simp [Frame.setVar], rfl⟩
  · simp [Frame.setVar, hi]

/-- What a part of a region leaves goes into the region's local, if the region has one. -/
theorem storeResult_runs {result : Option Nat} {usage : Usage} {n : Nat} {v : Value} {vs : List Value}
    (fc : FrameContext) (w : World) (h : storeResult result ctx b = .ok ((), b₁)) (hu : b₁.Links u)
    (hres : result.toList.length = usage.count) (hi : ∀ i ∈ result, n ≤ i ∧ i < f.locals.size)
    (hvs : vs.length = usage.count) (hv : ∀ x ∈ vs, x = v) (hst : f.stack = vs ++ base) :
    ∃ f', u.Advances fc ⟨b.pc, f, w⟩ ⟨b₁.pc, f', w⟩ ∧ f.Enters n f' ∧ f'.stack = base ∧
      (∀ i ∈ result, f'.locals[i]? = some v) ∧ (b.depth.isSome → b₁.depth.isSome) := by
  cases result with
  | none =>
    cases h
    have hnil : vs = [] := List.length_eq_zero_iff.1 (hvs.trans hres.symm)
    subst hnil
    exact ⟨f, .refl, ⟨rfl, fun _ _ => rfl, rfl, rfl⟩, hst, by simp, fun h => h⟩
  | some i =>
    obtain ⟨x, rfl⟩ := List.length_eq_one_iff.1 (hvs.trans hres.symm)
    obtain rfl := hv x List.mem_cons_self
    obtain ⟨hn, hlt⟩ := hi i rfl
    have hstore : emit (.storeLocal i) ctx b = .ok ((), b₁) := h
    obtain ⟨f', hadv, henters, hst', -, hlocal, hflow⟩ := storeLocal_runs fc w hstore hu hlt hn hst
    refine ⟨f', hadv, henters, hst', ?_, hflow⟩
    rintro j ⟨⟩
    exact hlocal

/-! ## Clauses -/

/-- The start of a clause: the exception goes into a hidden local and into the clause's variable. -/
def catching (c : CatchClause Emitted) : EmitM (Nat × List (Param × Nat)) := do
  let hidden ← newLocal .object
  match c.var with
  | some p =>
    let i ← newLocal p.ty
    emit .dup
    emit (.storeLocal hidden)
    emit (.storeLocal i)
    return (hidden, [(p, i)])
  | none =>
    emit (.storeLocal hidden)
    return (hidden, [])

theorem clause_eq (r : Region) (c : CatchClause Emitted) : clause r c = (do
    let entry ← newLabel
    build fun b => b.markEntry entry (r.stackDepth + 1)
    let x ← catching c
    withReader
      (fun ctx => { ctx with scopes := x.2 :: ctx.scopes, catchLocals := x.1 :: ctx.catchLocals })
      (c.body.valueAs r.ty r.usage)
    storeResult r.result
    branch .always r.after
    let target ← EmitM.check ((← get).labelPc entry)
    return (⟨r.start, r.stop, .catches c.test, target, r.stackDepth, r.finallyDepth⟩ : Handler)) := by
  unfold clause catching
  rcases c.var with _ | p <;> simp only [bind_assoc, pure_bind]

theorem emits_catching (c : CatchClause Emitted) : Emits ctx 1 0 (catching c) := by
  refine Emits.bind (.newLocal 1 .object) fun hidden => ?_
  rcases c.var with _ | p
  · exact Emits.bind (.emit (.storeLocal hidden) rfl) fun _ => .of_pure 0 _
  · refine Emits.bind (.newLocal 1 p.ty) fun i => Emits.bind (.emit .dup rfl) fun _ => ?_
    refine Emits.bind ((Emits.emit (.storeLocal hidden) rfl).add 1) fun _ => ?_
    exact Emits.bind (.emit (.storeLocal i) rfl) fun _ => .of_pure 0 _

theorem Region.Awaits.mono (h : r.Awaits b) (hg : Builder.Grows [] b D b' D') :
    r.Awaits b' := by
  obtain ⟨x, hx, hall⟩ := h
  exact ⟨x, hg.kept _ _ (by simp) hx, hall⟩

/-- Nothing is bound to the region's end yet. -/
theorem Region.Awaits.links (h : r.Awaits b) (hu : b'.Links u)
    (hg : Builder.Grows [r.after] b D b' D') : b.Links u := by
  refine hu.mono hg fun l hl s hs => ?_
  obtain rfl := List.mem_singleton.1 hl
  obtain ⟨x, hx, -⟩ := h
  rw [hx] at hs
  cases hs
  rfl

/-- The end of a part of a region: the result is stored and control goes to the region's end. -/
structure Leaves (r : Region) (ctx : EmitContext) (b : Builder) (D : Nat → Option Nat) (b₁ : Builder)
    (D₁ : Nat → Option Nat) (b' : Builder) (D' : Nat → Option Nat) : Prop where
  store : storeResult r.result ctx b = .ok ((), b₁)
  stored : Builder.Grows [] b D b₁ D₁
  awaits : r.Awaits b₁
  between : r.Between b' D'
  grows : Builder.Grows [r.after] b₁ D₁ b' D'
  nesting : b'.finallyNesting = b.finallyNesting
  labels : ∀ l, l ≠ r.after → b'.labels[l]? = b₁.labels[l]?
  pc : b'.pc = b₁.pc + 1
  written : b'.Written b₁.pc (.branch .always r.after)
  handlers : b'.handlers = b₁.handlers

theorem leaves_of_code {a : Builder} {A : Nat → Option Nat} (hres : r.result.toList.length = r.usage.count)
    (hadds : Adds [] 0 r.usage.count a A b D) (hdepth : ∀ d, a.depth = some d → d = r.stackDepth)
    (hlow : r.stackDepth ≤ a.pc) (hawait : r.Awaits a)
    (hstore : storeResult r.result ctx b = .ok ((), b₁)) (hbranch : branch .always r.after ctx b₁ = .ok ((), b')) :
    ∃ D₁ D', Leaves r ctx b D b₁ D₁ b' D' := by
  obtain ⟨D₁, h₁⟩ := (emits_storeResult hres b D hadds.tracks (hadds.le (by simp))).result hstore
  have hall := hadds.trans h₁
  obtain ⟨b'', D', hb'', hbetween, hg', hn', hother, hpc, hwritten, hhandlers⟩ := Region.Between.branch h₁.tracks
    (hawait.mono hall.grows) (hlow.trans hall.grows.pc_le) fun d hd => by
      obtain ⟨d₀, hd₀, hsum⟩ := hall.shifts d hd
      have := hdepth d₀ hd₀
      omega
  obtain rfl : b'' = b' := by
    rw [EmitM.build_inv hbranch] at hb''
    exact (Except.ok.inj hb'').symm
  exact ⟨D₁, D', hstore, h₁.grows, hawait.mono hall.grows, hbetween, hg', hn'.trans h₁.nesting, hother, hpc,
    hwritten, hhandlers⟩

/-- The parts of a clause's code. -/
structure ClauseCode (r : Region) (ctx : EmitContext) (c : CatchClause Emitted) (b : Builder) (D : Nat → Option Nat)
    (e : Handler) (b' : Builder) (hidden : Nat) (scope : List (Param × Nat)) (b₁ b₂ b₃ b₄ : Builder)
    (D₂ D₃ D₄ D' : Nat → Option Nat) : Prop where
  entry : Builder.Marked b.labels.size (some (r.stackDepth + 1)) b.newLabel.2 D b₁
  catching : catching c ctx b₁ = .ok ((hidden, scope), b₂)
  caught : Adds [] 1 0 b₁ D b₂ D₂
  body : c.body.valueAs r.ty r.usage (ctx.enter scope [hidden]) b₂ = .ok ((), b₃)
  adds : Adds [] 0 r.usage.count b₂ D₂ b₃ D₃
  awaits : r.Awaits b₁
  leaves : Leaves r ctx b₃ D₃ b₄ D₄ b' D'
  handler : e = ⟨r.start, r.stop, .catches c.test, b.pc, r.stackDepth, r.finallyDepth⟩

theorem clause_inv {c : CatchClause Emitted} {e : Handler} (hres : r.result.toList.length = r.usage.count)
    (hemits : c.Emits ctx r.ty r.usage) (hb : r.Between b D) (h : clause r c ctx b = .ok (e, b')) :
    ∃ hidden scope b₁ b₂ b₃ b₄ D₂ D₃ D₄ D', ClauseCode r ctx c b D e b' hidden scope b₁ b₂ b₃ b₄ D₂ D₃ D₄ D' := by
  rw [clause_eq] at h
  rw [EmitM.bind_apply, EmitM.newLabel_apply] at h
  obtain ⟨⟨⟩, b₁, hentry, hrest₁⟩ := EmitM.bind_eq_ok h
  obtain ⟨⟨hidden, scope⟩, b₂, hcatching, hrest₂⟩ := EmitM.bind_eq_ok hrest₁
  obtain ⟨⟨⟩, b₃, hbody, hrest₃⟩ := EmitM.bind_eq_ok hrest₂
  obtain ⟨⟨⟩, b₄, hstore, hrest₄⟩ := EmitM.bind_eq_ok hrest₃
  obtain ⟨⟨⟩, b₅, hbranch, hrest₅⟩ := EmitM.bind_eq_ok hrest₄
  obtain ⟨x, hx, hxall⟩ := hb.awaits
  have hne : b.labels.size ≠ r.after := by
    have := (Array.getElem?_eq_some_iff.1 hx).1
    omega
  obtain ⟨b₁', hmark', hmark⟩ := hb.tracks.newLabel.markEntry (d := r.stackDepth + 1) Builder.labels_newLabel
    rfl hb.depth (by simp) hb.low
  obtain rfl : b₁' = b₁ := by
    rw [EmitM.build_inv hentry] at hmark'
    exact (Except.ok.inj hmark').symm
  have hone : ∀ d, b₁'.depth = some d → 1 ≤ d := by
    intro d hd
    rw [hmark.depth] at hd
    cases hd
    omega
  have hawait : r.Awaits b₁' :=
    ⟨x, by rw [hmark.labels.other _ (Ne.symm hne)]; exact Builder.labels_newLabel_of_some hx, hxall⟩
  obtain ⟨D₂, h₂⟩ := (emits_catching c b₁' D hmark.tracks hone).result hcatching
  have hdepth₂ : ∀ d, b₂.depth = some d → d = r.stackDepth := by
    intro d hd
    obtain ⟨d₁, hd₁, hsum⟩ := h₂.shifts d hd
    rw [hmark.depth] at hd₁
    cases hd₁
    omega
  obtain ⟨D₃, h₃⟩ := (hemits scope hidden b₂ D₂ h₂.tracks (by simp)).result hbody
  obtain ⟨D₄, D', hleaves⟩ := leaves_of_code hres h₃ hdepth₂ (hb.low.le.trans (hmark.pc.ge.trans h₂.grows.pc_le))
    (hawait.mono h₂.grows) hstore hbranch
  -- the label of the entry is still bound to where the clause starts
  have hlabel : b₅.labels[b.labels.size]? = some ⟨some b.pc, some (r.stackDepth + 1)⟩ := by
    rw [hleaves.labels _ hne]
    exact ((h₂.grows.trans h₃.grows).trans hleaves.stored).kept _ _ (by simp) hmark.labels.here
  have htarget : b₅.labelPc b.labels.size = .ok b.pc := by
    unfold Builder.labelPc
    rw [Builder.labelState_eq hlabel]
    rfl
  rw [EmitM.bind_apply, EmitM.get_apply] at hrest₅
  simp only [htarget] at hrest₅
  cases hrest₅
  exact ⟨hidden, scope, b₁', b₂, b₃, b₄, D₂, D₃, D₄, D', hmark, hcatching, h₂, hbody, h₃, hawait, hleaves, rfl⟩

/-- A clause has started: the exception is in its locals, and the stack is as below the exception. -/
structure Catches (var : Option Param) (hidden : Nat) (scope : List (Param × Nat)) (exn : Value) (base : List Value)
    (n n' : Nat) (f f' : Frame) : Prop where
  enters : f.Enters n f'
  stack : f'.stack = base
  kept : f'.locals[hidden]? = some exn
  vars : scope.map Prod.fst = var.toList
  bound : ∀ v ∈ scope, f'.locals[v.2]? = some exn
  fresh : EmitContext.Fresh scope [hidden] n n'

theorem catching_runs {c : CatchClause Emitted} {x : Nat × List (Param × Nat)} {exn : Value}
    (fc : FrameContext) (w : World) (h : catching c ctx b = .ok (x, b₁)) (hu : b₁.Links u)
    (hsize : f.locals.size = u.locals.size) (hst : f.stack = exn :: base) :
    b.locals.size ≤ b₁.locals.size ∧ (b.depth.isSome → b₁.depth.isSome) ∧
      ∃ f', u.Advances fc ⟨b.pc, f, w⟩ ⟨b₁.pc, f', w⟩ ∧
        Catches c.var x.1 x.2 exn base b.locals.size b₁.locals.size f f' := by
  obtain ⟨hidden, b₂, hnew, h⟩ := EmitM.bind_eq_ok h
  rw [EmitM.newLocal_apply] at hnew
  cases hnew
  have hsize₂ : (b.newLocal .object).2.locals.size = b.locals.size + 1 := by simp [Builder.newLocal]
  rcases hvar : c.var with _ | p <;> rw [hvar] at h
  · obtain ⟨⟨⟩, b₃, hstore, hpure⟩ := EmitM.bind_eq_ok h
    cases hpure
    have hlocals := (EmitM.writes_emit hstore).locals
    obtain ⟨hindex, hlt⟩ := Builder.newLocal_index .object hu (by rw [hlocals])
    rw [hindex] at hstore ⊢
    obtain ⟨f', hadv, henters, hst', -, hlocal, hflow⟩ :=
      storeLocal_runs fc w hstore hu (by omega) (le_refl b.locals.size) hst
    refine ⟨by rw [hlocals]; omega, hflow, f', hadv, henters, hst', hlocal, rfl, by simp, by simp, by simp, ?_⟩
    rintro i hi
    obtain rfl := List.mem_singleton.1 hi
    exact ⟨le_rfl, by rw [hlocals]; omega, by simp⟩
  · obtain ⟨i, b₃, hnew, h⟩ := EmitM.bind_eq_ok h
    rw [EmitM.newLocal_apply] at hnew
    cases hnew
    obtain ⟨⟨⟩, b₄, hdup, h⟩ := EmitM.bind_eq_ok h
    obtain ⟨⟨⟩, b₅, hhidden, h⟩ := EmitM.bind_eq_ok h
    obtain ⟨⟨⟩, b₆, hstore, hpure⟩ := EmitM.bind_eq_ok h
    cases hpure
    have hw := ((EmitM.writes_emit hdup).append (EmitM.writes_emit hhidden)).append (EmitM.writes_emit hstore)
    have hsize₃ : b₁.locals.size = b.locals.size + 2 := by
      rw [hw.locals]
      simp [Builder.newLocal]
    obtain ⟨hindex, hlt⟩ := Builder.newLocal_index .object hu (b := b) (by omega)
    obtain ⟨hindex', hlt'⟩ := Builder.newLocal_index p.ty hu (b := (b.newLocal .object).2) (by rw [hw.locals])
    rw [hindex'] at hw ⊢
    rw [hindex] at hw ⊢
    rw [hsize₂] at hw hlt' ⊢
    have hrun := (hw.straight hu (by simp)).run fc _ f w
    -- the copy goes into the hidden local, the exception itself into the variable
    have hdup' : MachineM.effect .dup fc (f, w) = (.ok (), { f with stack := exn :: exn :: base }, w) :=
      MachineM.shuffles_dup exn f w base hst
    have hx : (Frame.var? { f with stack := exn :: exn :: base } (.localVar b.locals.size)).isSome := by
      simp [Frame.var?]
      omega
    have hy : (Frame.var? { f with locals := f.locals.setIfInBounds b.locals.size exn, stack := exn :: base }
        (.localVar (b.locals.size + 1))).isSome := by
      simp [Frame.var?]
      omega
    have heffect : CodeUnit.effects ([.dup] ++ [.storeLocal b.locals.size] ++ [.storeLocal (b.locals.size + 1)]) fc
      (f, w) =
        (.ok (), { f with
          locals := (f.locals.setIfInBounds b.locals.size exn).setIfInBounds (b.locals.size + 1) exn, stack := base },
            w) := by
      show CodeUnit.effects [.dup, .storeLocal b.locals.size, .storeLocal (b.locals.size + 1)] fc (f, w) = _
      rw [CodeUnit.effects_cons, Act.bind_ok hdup', CodeUnit.effects_cons,
        Act.bind_ok (MachineM.effect_store (.inr ⟨_, rfl, rfl⟩) hx rfl), CodeUnit.effects_cons]
      exact Act.bind_ok (MachineM.effect_store (.inr ⟨_, rfl, rfl⟩) hy rfl) _
    rw [heffect] at hrun
    have hadv : u.Advances fc ⟨b.pc, f, w⟩ ⟨b₁.pc, { f with
        locals := (f.locals.setIfInBounds b.locals.size exn).setIfInBounds (b.locals.size + 1) exn, stack := base },
          w⟩ := by
      rw [hw.pc]
      exact hrun
    refine ⟨by omega, hw.flow (by simp [Instr.endsFlow]), _, hadv, ⟨rfl, fun j hj => ?_, by simp, rfl⟩, rfl, ?_, rfl,
      fun v hv => ?_, ?_⟩
    · rw [Array.getElem?_setIfInBounds_ne (by omega), Array.getElem?_setIfInBounds_ne (by omega)]
    · rw [Array.getElem?_setIfInBounds_ne (by omega)]
      simp [show b.locals.size < f.locals.size by omega]
    · obtain rfl := List.mem_singleton.1 hv
      simp [show b.locals.size + 1 < f.locals.size by omega]
    · refine ⟨fun v hv => ?_, by simp, fun j hj => ?_⟩
      · obtain rfl := List.mem_singleton.1 hv
        simp only
        omega
      · obtain rfl := List.mem_singleton.1 hj
        refine ⟨le_rfl, by omega, fun v hv => ?_⟩
        obtain rfl := List.mem_singleton.1 hv
        simp

/-! ## Finally bodies -/

/-- The parts of a finally body's code. -/
structure FinalCode (r : Region) (ctx : EmitContext) (final : Emitted) (b : Builder) (D : Nat → Option Nat)
    (b' b₁ b₂ b₃ b₄ : Builder) (D₂ D₃ D₄ : Nat → Option Nat) : Prop where
  entry : Builder.Marked r.after (some r.stackDepth) b D b₁
  enter : emit .enterFinally ctx b₁ = .ok ((), b₂)
  entered : b₂.Tracks D₂ ∧ Builder.Grows [] b₁ D b₂ D₂ ∧ b₂.depth = some r.stackDepth ∧
    b₂.finallyNesting = b.finallyNesting + 1
  body : final.discard ctx b₂ = .ok ((), b₃)
  adds : Adds [] 0 0 b₂ D₂ b₃ D₃
  leave : emit .endFinally ctx b₃ = .ok ((), b₄)
  left : b₄.Tracks D₄ ∧ Builder.Grows [] b₃ D₃ b₄ D₄ ∧ b₄.depth = b₃.depth
  handlers : b' = b₄.addHandler ⟨r.start, b₁.pc, .finally, b₂.pc, r.stackDepth, r.finallyDepth⟩

theorem finalize_inv {final : Emitted} (hf : Emits ctx 0 0 final.discard)
    (hb : r.Between b D) (h : finalize r (some final) ctx b = .ok ((), b')) :
    ∃ b₁ b₂ b₃ b₄ D₂ D₃ D₄, FinalCode r ctx final b D b' b₁ b₂ b₃ b₄ D₂ D₃ D₄ := by
  obtain ⟨⟨⟩, b₁, hentry, hrest₁⟩ := EmitM.bind_eq_ok h
  rw [EmitM.bind_apply, EmitM.get_apply] at hrest₁
  obtain ⟨⟨⟩, b₂, henter, hrest₂⟩ := EmitM.bind_eq_ok hrest₁
  rw [EmitM.bind_apply, EmitM.get_apply] at hrest₂
  obtain ⟨⟨⟩, b₃, hbody, hrest₃⟩ := EmitM.bind_eq_ok hrest₂
  obtain ⟨⟨⟩, b₄, hleave, hrest₄⟩ := EmitM.bind_eq_ok hrest₃
  obtain ⟨x, hx, hxall⟩ := hb.awaits
  obtain ⟨b₁', hmark', hmark⟩ := hb.tracks.markEntry hx rfl hb.depth hxall hb.low.le
  obtain rfl : b₁' = b₁ := by
    rw [EmitM.build_inv hentry] at hmark'
    exact (Except.ok.inj hmark').symm
  obtain ⟨b₂', D₂, hemit₂, ht₂, hg₂, hd₂, hn₂, -⟩ := hmark.tracks.emit (i := .enterFinally) rfl (by simp) fun d hd => by
    simp [Instr.pops]
  obtain rfl : b₂' = b₂ := by
    rw [EmitM.build_inv henter] at hemit₂
    exact (Except.ok.inj hemit₂).symm
  obtain ⟨D₃, h₃⟩ := (hf b₂' D₂ ht₂ (by simp)).result hbody
  obtain ⟨b₄', D₄, hemit₄, ht₄, hg₄, hd₄, -, -⟩ := h₃.tracks.emit (i := .endFinally) rfl
    (fun _ => by rw [h₃.nesting, hn₂]; simp [Builder.nestingAfter]) fun d hd => by simp [Instr.pops]
  obtain rfl : b₄' = b₄ := by
    rw [EmitM.build_inv hleave] at hemit₄
    exact (Except.ok.inj hemit₄).symm
  rw [EmitM.modify_apply] at hrest₄
  cases hrest₄
  refine ⟨b₁', b₂', b₃, b₄', D₂, D₃, D₄, hmark, henter, ⟨ht₂, hg₂, ?_, ?_⟩, hbody, h₃, hleave, ⟨ht₄, hg₄, ?_⟩, rfl⟩
  · rw [hd₂, hmark.depth]
    rfl
  · rw [hn₂, hmark.nesting]
    rfl
  · rw [hd₄]
    cases b₃.depth <;> rfl

/-- Once the region's end is bound, the branches to it lead there. -/
theorem Region.Awaits.linked {c : Builder} {s : LabelState} {p : Nat} (h : r.Awaits b)
    (hg : Builder.Grows [r.after] b D c D') (hu : c.Links u) (hs : c.labels[r.after]? = some s) (hp : s.pc = some p) :
    b.Links u ∧ ∀ pc, b.Written pc (.branch .always r.after) → u.instrs[pc]? = some (.branch .always p) :=
  ⟨h.links hu hg, fun pc hpc => hu.branch pc .always r.after s p (hg.written _ _ hpc) hs hp⟩

theorem finalize_links {final : Option Emitted}
    (hf : ∀ f ∈ final, Emits ctx 0 0 f.discard) (hb : r.Between b D) (h : finalize r final ctx b = .ok ((), b'))
    (hu : b'.Links u) :
    b.Links u ∧ ∀ pc, b.Written pc (.branch .always r.after) → u.instrs[pc]? = some (.branch .always b.pc) := by
  cases final with
  | none =>
    obtain ⟨x, hx, hxall⟩ := hb.awaits
    obtain ⟨b'', hmark', hmark⟩ := hb.tracks.mark hx rfl (by simp [hb.depth])
    obtain rfl : b'' = b' := by
      have hcode : EmitM.mark r.after ctx b = .ok ((), b') := h
      rw [EmitM.build_inv hcode] at hmark'
      exact (Except.ok.inj hmark').symm
    exact hb.awaits.linked hmark.grows hu hmark.labels.here rfl
  | some f =>
    obtain ⟨b₁, b₂, b₃, b₄, D₂, D₃, D₄, hparts⟩ := finalize_inv (hf f rfl) hb h
    have hgrows := (hparts.entered.2.1.trans hparts.adds.grows).trans hparts.left.2.1
    rw [hparts.handlers] at hu
    exact hb.awaits.linked (hparts.entry.grows.trans (hgrows.mono (by simp))) hu.of_addHandler
      (hgrows.kept _ _ (by simp) hparts.entry.labels.here) rfl

/-- A finally body is entered without an exception. -/
theorem enterFinally_runs (fc : FrameContext) (w : World) (h : emit .enterFinally ctx b = .ok ((), b₁))
    (hu : b₁.Links u) : u.Advances fc ⟨b.pc, f, w⟩ ⟨b₁.pc, { f with pending := none :: f.pending }, w⟩ := by
  have hw := EmitM.writes_emit h
  have hrun := (hw.straight hu (by simp)).run fc _ f w
  rw [hw.pc]
  exact hrun

/-- A finally body that was entered without an exception is left. -/
theorem endFinally_runs {ps : List (Option Value)} (fc : FrameContext) (w : World)
    (h : emit .endFinally ctx b = .ok ((), b₁)) (hu : b₁.Links u) (hp : f.pending = none :: ps) :
    u.Advances fc ⟨b.pc, f, w⟩ ⟨b₁.pc, { f with pending := ps }, w⟩ := by
  have hw := EmitM.writes_emit h
  have hrun := (hw.straight hu (by simp)).run fc _ f w
  have heffect : CodeUnit.effects [.endFinally] fc (f, w) = (.ok (), { f with pending := ps }, w) := by
    rw [show CodeUnit.effects [.endFinally] = MachineM.endFinally from bind_pure_unit, MachineM.endFinally,
      Act.bind_ok (Act.own_apply fc (f, w))]
    simp only [hp]
    rfl
  rw [heffect] at hrun
  rw [hw.pc]
  exact hrun

/-- A finally body that was entered with an exception throws it again when it is left. -/
theorem endFinally_stops {exn : Value} {ps : List (Option Value)} (fc : FrameContext) (w : World)
    (h : emit .endFinally ctx b = .ok ((), b₁)) (hu : b₁.Links u) (hp : f.pending = some exn :: ps) :
    u.Stops fc ⟨b.pc, f, w⟩ b.pc (.thrown exn) { f with pending := ps } w := by
  have hw := EmitM.writes_emit h
  have hrun := (hw.straight hu (by simp)).run fc _ f w
  have heffect : CodeUnit.effects [.endFinally] fc (f, w) = (.error (.thrown exn), { f with pending := ps }, w) := by
    rw [show CodeUnit.effects [.endFinally] = MachineM.endFinally from bind_pure_unit, MachineM.endFinally,
      Act.bind_ok (Act.own_apply fc (f, w))]
    simp only [hp]
    rfl
  rw [heffect] at hrun
  obtain ⟨k, hk, hstops⟩ := hrun
  obtain rfl : k = 0 := by simpa using hk
  exact hstops

/-! ## Regions -/

/-- The parts of a region's code. -/
structure RegionCode (r : Region) (ctx : EmitContext) (body : Emitted) (clauses : List (CatchClause Emitted))
    (final : Option Emitted) (b : Builder) (D : Nat → Option Nat) (b' : Builder) (b₁ b₂ b₃ b₄ b₅ b₆ : Builder)
    (es : List Handler) (D₂ D₃ D₄ D₅ D₆ D' : Nat → Option Nat) : Prop where
  opened : Adds [] 0 0 b D b₁ D
  depth : b₁.depth = b.depth
  pc : b₁.pc = b.pc
  count : r.result.toList.length = r.usage.count
  result : ∀ i ∈ r.result, i = (b.newLocal r.ty).1 ∧ b₁ = (b.newLocal r.ty).2
  start : r.start = b.pc
  stop : r.stop = b₄.pc
  finallyDepth : r.finallyDepth = b.finallyNesting
  body : body.valueAs r.ty r.usage ctx b₁.newLabel.2 = .ok ((), b₂)
  adds : Adds [] 0 r.usage.count b₁.newLabel.2 D b₂ D₂
  leaves : Leaves r ctx b₂ D₂ b₃ D₃ b₄ D₄
  clauses : clauses.mapM (clause r) ctx b₄ = .ok (es, b₅)
  between : r.Between b₅ D₅
  more : Builder.Grows [r.after] b₄ D₄ b₅ D₅
  nesting : b₅.finallyNesting = b.finallyNesting
  handled : r.Between (es.foldl Builder.addHandler b₅) D₅
  grows : Builder.Grows [r.after] b₁ D (es.foldl Builder.addHandler b₅) D₅
  finalized : finalize r final ctx (es.foldl Builder.addHandler b₅) = .ok ((), b₆)
  restored : restore r.result ctx b₆ = .ok ((), b')
  closes : Adds [] 0 r.usage.count b₆ D₆ b' D'
  after : r.after = b₁.labels.size

theorem resultLocal_inv {usage : Usage} {ty : Ty} {result : Option Nat}
    (h : resultLocal usage ty ctx b = .ok (result, b₁)) : b₁.pc = b.pc ∧ ∀ i ∈ result, i = (b.newLocal ty).1 ∧ b₁ =
      (b.newLocal ty).2 := by
  cases usage with
  | discard =>
    cases h
    simp
  | value =>
    obtain ⟨i, b₂, hnew, hpure⟩ := EmitM.bind_eq_ok h
    rw [EmitM.newLocal_apply] at hnew
    cases hnew
    cases hpure
    refine ⟨rfl, ?_⟩
    rintro i ⟨⟩
    exact ⟨rfl, rfl⟩

theorem region_inv {ty : Ty} {body : Emitted} {clauses : List (CatchClause Emitted)} {final : Option Emitted}
    {usage : Usage} {depth : Nat} (hbody : Emits ctx 0 usage.count (body.valueAs ty usage))
    (hc : ∀ c ∈ clauses, c.Emits ctx ty usage)
    (hf : ∀ f ∈ final, Emits ctx 0 0 f.discard) (ht : b.Tracks D) (hd : b.depth = some depth)
    (h : region ty body clauses final usage depth ctx b = .ok ((), b')) :
    ∃ r b₁ b₂ b₃ b₄ b₅ b₆ es D₂ D₃ D₄ D₅ D₆ D', r.ty = ty ∧ r.usage = usage ∧ r.stackDepth = depth ∧
      RegionCode r ctx body clauses final b D b' b₁ b₂ b₃ b₄ b₅ b₆ es D₂ D₃ D₄ D₅ D₆ D' := by
  obtain ⟨result, b₁, hresult, hrest₁⟩ := EmitM.bind_eq_ok h
  obtain ⟨h₁, hd₁, hcount⟩ := (yields_resultLocal usage ty ht).result hresult
  obtain ⟨hpc₁, hlocal⟩ := resultLocal_inv hresult
  have hnested := EmitM.of_bind_ok (get_apply ctx b₁) hrest₁
  have hlabelled := EmitM.of_bind_ok (newLabel_apply ctx b₁) hnested
  have hopened := EmitM.of_bind_ok (get_apply ctx b₁.newLabel.2) hlabelled
  obtain ⟨⟨⟩, b₂, hcode, hrest₂⟩ := EmitM.bind_eq_ok hopened
  obtain ⟨⟨⟩, b₃, hstore, hrest₃⟩ := EmitM.bind_eq_ok hrest₂
  obtain ⟨⟨⟩, b₄, hbranch, hrest₄⟩ := EmitM.bind_eq_ok hrest₃
  have hstopped := EmitM.of_bind_ok (get_apply ctx b₄) hrest₄
  obtain ⟨es, b₅, hclauses, hrest₅⟩ := EmitM.bind_eq_ok hstopped
  have hlisted := EmitM.of_bind_ok (modify_apply _ ctx b₅) hrest₅
  obtain ⟨⟨⟩, b₆, hfinal, hrestore⟩ := EmitM.bind_eq_ok hlisted
  obtain ⟨D₂, h₂⟩ := (hbody _ D h₁.tracks.newLabel (by simp)).result hcode
  have hstart : b₁.pc ≤ b₁.newLabel.2.pc := le_rfl
  have hawait : Region.Awaits ⟨ty, usage, result, b₁.labels.size, b₁.newLabel.2.pc, b₄.pc, depth, b₁.finallyNesting⟩
      b₁.newLabel.2 := ⟨none, Builder.labels_newLabel, by simp⟩
  have hdepth : ∀ d, b₁.newLabel.2.depth = some d → d = depth := by
    intro d hd'
    rw [show b₁.newLabel.2.depth = b₁.depth from rfl, hd₁, hd] at hd'
    cases hd'
    rfl
  obtain ⟨D₃, D₄, hleaves⟩ := leaves_of_code hcount h₂ hdepth
    ((ht.low _ _ (.inr ⟨rfl, hd⟩)).trans h₁.grows.pc_le) hawait hstore hbranch
  obtain ⟨D₅, hb₅, hg₅, hn₅, hes, -⟩ := (yields_clauses hcount clauses hc hleaves.between).result hclauses
  have hg : Builder.Grows [b₁.labels.size] b₁ D b₅ D₅ :=
    (((Builder.Grows.newLabel.trans (h₂.grows.mono (by simp))).trans (hleaves.stored.mono (by simp))).trans
      hleaves.grows).trans hg₅
  obtain ⟨hb₆, hg₆⟩ := Region.Between.addHandlers hstart es hb₅ hg hg₅.pc_le hes
  obtain ⟨D₆, ht₆, -⟩ := (yields_finalize hf hb₆ hg₆ hstart le_rfl).result hfinal
  obtain ⟨D', h'⟩ := (emits_restore hcount b₆ D₆ ht₆ (by simp)).result hrestore
  refine ⟨_, b₁, b₂, b₃, b₄, b₅, b₆, es, D₂, D₃, D₄, D₅, D₆, D', rfl, rfl, rfl, h₁, hd₁, hpc₁, hcount, hlocal, hpc₁,
    rfl, h₁.nesting, hcode, h₂, hleaves, hclauses, hb₅, hg₅, ?_, hb₆, hg₆, hfinal,
    hrestore, h', rfl⟩
  rw [hn₅, hleaves.nesting, h₂.nesting, ← h₁.nesting]
  rfl

end Emit

end ExprCompiler
