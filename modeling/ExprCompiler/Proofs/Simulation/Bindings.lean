/-
What a token denotes. Emission looks a token up among the locals of the scopes around it, the formals and the captures
of the unit; evaluation looks among the variables of the activation and then among those that the running lambda
captured. In any nesting of blocks, catch bodies and lambdas both come to the same variable, if no formals repeat a
token and 16 bits can count what a unit keeps.
-/
import ExprCompiler.Proofs.Closure.Slots
import ExprCompiler.Proofs.Compile.Nested
import ExprCompiler.Proofs.Simulation.Units

namespace ExprCompiler

/-! ## Places in a body -/

/-- Where evaluation is: its surroundings, the variables of the activation and the world. -/
structure EvalPoint where
  ec : EvalContext
  vars : Activation
  w : World

/-- The variables that the running lambda captured. -/
def EvalPoint.captured (p : EvalPoint) : Activation :=
  EvalM.capturedBy p.w p.ec.self

/-- Tells where evaluation is. -/
def EvalM.here : EvalM EvalPoint :=
  return ⟨← read, ← Act.own, ← Act.world⟩

/-- A place in the body of a unit, as evaluation and emission come to it. -/
structure Site extends EvalPoint where
  ctx : EmitContext
  /-- The unit's code so far. -/
  code : Builder

namespace Site

/-- The beginning of a unit, where evaluation has begun with the body. -/
def start (p : EvalPoint) (operators : Overloads) (limit : Nat) (name : String) (params : List Param) (ret : Ty)
    (capture : Capture) : Site where
  toEvalPoint := p
  ctx := { operators, params, capture, layout := capture.layout? limit }
  code := Emit.start name params ret (capture.layout? limit)

/-- The formals are different tokens, and 16 bits can count what the unit keeps. -/
structure Countable (s : Site) : Prop where
  distinct : s.ctx.params.Nodup
  formals : s.ctx.params.length < Nat.pow 2 16
  locals : s.code.locals.size ≤ Nat.pow 2 16
  items : s.ctx.capture.size ≤ Nat.pow 2 16

end Site

/-- Places that emission and evaluation come to, each inside of the next. Formals are bound by an activation; scopes are
entered for blocks and for clauses that accept an exception, and left again; variables are assigned. A lambda is called
after it was created at a place, where its captured tokens are loaded. In between, code may be added and calls made, as
long as the running lambda keeps the variables that it captured. -/
inductive Reached (operators : Overloads) (limit : Nat) : List Site → Prop
  | root {lib : Library} {inv : Invoker} {label name : String} {params : List Param} {ret : Ty} {capture : Capture}
    {args : List Value} {w w' : World} {p : EvalPoint}
    (hbind : Eval.binding lib inv none label params args EvalM.here w = (.ok p, w')) (hroot : capture.params = []) :
    Reached operators limit [.start p operators limit name params ret capture]
  | lambda {s : Site} {sites : List Site} {lib : Library} {inv : Invoker} {label name : String} {params : List Param}
    {body : Tree} {named : Option String} {ret : Ty} {capture : Capture} {args : List Value} {ref : LambdaRef}
    {t : Activation × World} {w w' : World} {p : EvalPoint} (h : Reached operators limit (s :: sites))
    (hnew : Eval.instantiate params body named s.ec (s.vars, s.w) = (.ok (.func (.interpreted ref)), t))
    (hkept : (EvalM.capturedBy w ref).toList.map Prod.fst = (EvalM.capturedBy t.2 ref).toList.map Prod.fst)
    (hbind : Eval.binding lib inv ref label params args EvalM.here w = (.ok p, w'))
    (hloads : ∀ q ∈ capture.params, ∃ x, EmitM.resolve q s.ctx s.code = .ok (x, s.code)) :
    Reached operators limit (.start p operators limit name params ret capture :: s :: sites)
  | between {s : Site} {sites : List Site} {code : Builder} {w : World} (h : Reached operators limit (s :: sites))
    (hcode : s.code.locals.size ≤ code.locals.size)
    (hkept : (EvalM.capturedBy w s.ec.self).toList.map Prod.fst = s.captured.toList.map Prod.fst) :
    Reached operators limit (⟨⟨s.ec, s.vars, w⟩, s.ctx, code⟩ :: sites)
  | assigned {s : Site} {sites : List Site} {y : EvalVar} {v : Value} {t : Activation × World}
    (h : Reached operators limit (s :: sites)) (hwrite : EvalM.access.write y v s.ec (s.vars, s.w) = (.ok (), t)) :
    Reached operators limit (⟨⟨s.ec, t.1, t.2⟩, s.ctx, s.code⟩ :: sites)
  | left {s i : Site} {sites : List Site} {scope : List (Param × Nat)} {hidden : List Nat} {xs : List (Param × Value)}
    {x : EvalM Value} {r : Except Stop Value} {t : Activation × World} (h : Reached operators limit (s :: sites))
    (hi : Reached operators limit (i :: sites)) (hctx : i.ctx = s.ctx.enter scope hidden)
    (hcode : s.code.locals.size ≤ i.code.locals.size) (hself : i.ec.self = s.ec.self)
    (hx : x s.ec (s.vars ++ xs.toArray, s.w) = (r, i.vars, i.w))
    (hleave : EvalM.within xs x s.ec (s.vars, s.w) = (r, t)) :
    Reached operators limit (⟨⟨s.ec, t.1, t.2⟩, s.ctx, i.code⟩ :: sites)
  | block {s : Site} {sites : List Site} {vars : List Param} {scope : List (Param × Nat)} {code : Builder}
    {p : EvalPoint} {t : Activation × World} (h : Reached operators limit (s :: sites))
    (hd : Emit.declare vars s.ctx s.code = .ok (scope, code))
    (hin : EvalM.declaring vars EvalM.here s.ec (s.vars, s.w) = (.ok p, t)) :
    Reached operators limit (⟨p, s.ctx.enter scope [], code⟩ :: sites)
  | clause {s : Site} {sites : List Site} {c : CatchClause Tree} {hidden : Nat} {scope : List (Param × Nat)}
    {code : Builder} {exn : Value} {vars : List (Param × Value)} {p : EvalPoint} {t t' : Activation × World}
    (h : Reached operators limit (s :: sites)) (hf : c.filter = none)
    (hc : Emit.catching (c.map (.of Tree.emission)) s.ctx s.code = .ok ((hidden, scope), code))
    (haccepts : Eval.accepted? exn (c.map (.of Tree.meaning)) s.ec (s.vars, s.w) = (.ok (some vars), t))
    (hin : EvalM.catching exn vars EvalM.here s.ec t = (.ok p, t')) :
    Reached operators limit (⟨p, s.ctx.enter scope [hidden], code⟩ :: sites)

/-! ## The evaluator at a place -/

section

variable {α : Type} {ec : EvalContext} {s t : Activation × World} {p : EvalPoint} {xs : List (Param × Value)}
  {exn : Value}

/-- An activation begins with the formals. -/
theorem Eval.binding_here {lib : Library} {inv : Invoker} {self : Option LambdaRef} {label : String}
    {params : List Param} {args : List Value} {w w' : World}
    (h : binding lib inv self label params args EvalM.here w = (.ok p, w')) :
    args.length = params.length ∧ p = ⟨⟨lib, inv, self, []⟩, (params.zip args).toArray, w⟩ := by
  by_cases hlen : params.length = args.length
  · rw [binding_eq hlen] at h
    cases h
    exact ⟨hlen.symm, rfl⟩
  · rw [binding, if_neg hlen] at h
    cases h

/-- A scope has its variables behind those around it. -/
theorem EvalM.within_here (h : within xs here ec s = (.ok p, t)) : p = ⟨ec, s.1 ++ xs.toArray, s.2⟩ := by
  rw [within_apply] at h
  cases h
  rfl

/-- A scope ends with the variables around it as they were left inside. -/
theorem EvalM.within_eq {x : EvalM α} {vars' : Activation} {w' : World} {r : Except Stop α}
    (hx : x ec (s.1 ++ xs.toArray, s.2) = (r, vars', w')) (h : within xs x ec s = (r, t)) :
    t = (vars'.take s.1.size, w') := by
  rw [within_apply, hx] at h
  exact (congrArg Prod.snd h).symm

/-- An assignment leaves all variables in place. -/
theorem EvalM.write_tokens {y : EvalVar} {v : Value} (h : access.write y v ec s = (.ok (), t)) :
    t.1.toList.map Prod.fst = s.1.toList.map Prod.fst ∧
      (capturedBy t.2 ec.self).toList.map Prod.fst = (capturedBy s.2 ec.self).toList.map Prod.fst := by
  have hset : ∀ vars i, (setValue vars i v).toList.map Prod.fst = vars.toList.map Prod.fst := fun vars i => by
    simpa using congrArg Array.toList (map_fst_setValue vars i v)
  obtain ⟨lib, inv, self, handling⟩ := ec
  cases y with
  | own i =>
    cases h
    exact ⟨hset _ i, rfl⟩
  | temp _ =>
    cases h
    exact ⟨rfl, rfl⟩
  | captured i =>
    cases self with
    | none =>
      cases h
      exact ⟨rfl, rfl⟩
    | some l =>
      cases h
      refine ⟨rfl, ?_⟩
      simp only [capturedBy, Option.bind_some, World.lambda?, Array.getElem?_modify, if_pos]
      cases s.2.lambdas[l.id]? with
      | none => rfl
      | some c => exact hset c.captured i

theorem EvalM.catching_here (h : catching exn xs here ec s = (.ok p, t)) :
    p = ⟨{ ec with handling := exn :: ec.handling }, s.1 ++ xs.toArray, s.2⟩ := by
  rw [catching, within_apply] at h
  cases h
  rfl

/-- A clause without a filter is entered as it finds things, with the exception for its variable. -/
theorem Eval.accepted?_eq_some {c : CatchClause Evaluated} (hf : c.filter = none)
    (h : accepted? exn c ec s = (.ok (some xs), t)) : xs = c.var.toList.map (·, exn) ∧ t = s := by
  unfold accepted? at h
  simp only [hf] at h
  split at h
  · cases h
  · cases h
    exact ⟨rfl, rfl⟩

/-- An instance has captured what was in sight, outer variables first. -/
theorem Eval.capturedBy_instantiate {params : List Param} {body : Tree} {name : Option String} {ref : LambdaRef}
    (h : instantiate params body name ec s = (.ok (.func (.interpreted ref)), t)) :
    EvalM.capturedBy t.2 ref = EvalM.capturedBy s.2 ec.self ++ s.1 := by
  cases h
  simp [EvalM.capturedBy, World.lambda?]

end

/-! ## Bindings -/

/-- A variable of the place where a lambda is created, as the lambda sees it. -/
def Site.seen (s : Site) : EvalVar → EvalVar
  | .own i => .captured (s.captured.size + i)
  | y => y

/-- A variable of the frame and one of the evaluator are the same binding. A unit's own variables stand in the same
order on both sides, formals first; a closure item holds what its token denotes where the closure is made. -/
inductive SameBinding : List Site → FrameVar → EvalVar → Prop
  | own {s : Site} {sites : List Site} {i : Nat} {p : Param} {x : FrameVar} (hx : s.ctx.slots[i]? = some (p, x)) :
    SameBinding (s :: sites) x (.own i)
  | item {s o : Site} {sites : List Site} {l : Layout} {i slot : Nat} {p : Param} {x : FrameVar} {y : EvalVar}
    (hl : s.ctx.layout = some l) (hp : s.ctx.capture.params[i]? = some p) (hslot : l.slot .param i = .ok slot)
    (hx : EmitM.resolve p o.ctx o.code = .ok (x, o.code)) (h : SameBinding (o :: sites) x y) :
    SameBinding (s :: o :: sites) (.closure slot) (o.seen y)

/-- The evaluator's variable of a token. -/
inductive Site.Finds (s : Site) (p : Param) : EvalVar → Prop
  | own {i : Nat} {v : Value} (h : Innermost s.vars.toList p v i) : s.Finds p (.own i)
  | captured {i : Nat} {v : Value} (hout : ∀ x ∈ s.vars.toList, x.1 ≠ p) (h : Innermost s.captured.toList p v i) :
    s.Finds p (.captured i)

theorem Innermost.of_tokens {γ δ : Type} {xs : List (Param × γ)} {ys : List (Param × δ)} {p : Param} {c : γ} {i : Nat}
    (h : Innermost xs p c i) (ht : ys.map Prod.fst = xs.map Prod.fst) : ∃ d, Innermost ys p d i := by
  have hxy : List.Forall₂ (fun x y => y.1 = x.1) xs ys := by
    rw [← List.forall₂_map_left_iff (R := fun q (y : Param × δ) => y.1 = q), ← ht, List.forall₂_map_left_iff]
    exact List.forall₂_same.2 fun _ _ => rfl
  obtain ⟨d, hd, -⟩ := h.forall₂ hxy fun _ _ hr => hr
  exact ⟨d, hd⟩

namespace Site

variable {s o : Site} {p : Param} {y : EvalVar}

theorem Finds.lookup (h : s.Finds p y) : EvalM.lookup p s.ec (s.vars, s.w) = (.ok y, s.vars, s.w) := by
  rw [EvalM.lookup, Act.bind_ok (Act.own_apply _ _)]
  cases h with
  | own h =>
    simp only [EvalM.position?_of_innermost h]
    rfl
  | captured hout h =>
    simp only [EvalM.position?_eq_none hout]
    rw [Act.bind_ok (Act.world_apply _ _), Act.bind_ok (Act.read_apply _ _)]
    simp only [EvalPoint.captured] at h
    simp only [EvalM.position?_of_innermost h]
    rfl

/-- What a place finds, a lambda that is created there finds among its captured variables. -/
theorem Finds.seen (h : o.Finds p y) :
    ∃ v i, o.seen y = .captured i ∧ Innermost (o.captured ++ o.vars).toList p v i := by
  rw [Array.toList_append]
  cases h with
  | own h => exact ⟨_, _, rfl, h.append_right⟩
  | captured hout h => exact ⟨_, _, rfl, h.append_left hout⟩

/-- The unit's variables stand in the same order on both sides, kept apart from each other. -/
structure Sound (limit : Nat) (s : Site) : Prop where
  fits : s.ctx.Fits s.code
  tokens : s.ctx.slots.map Prod.fst = s.vars.toList.map Prod.fst
  layout : s.ctx.layout = s.ctx.capture.layout? limit

theorem Sound.enter {limit : Nat} (h : s.Sound limit) {scope : List (Param × Nat)} {hidden : List Nat} {code : Builder}
    {vars : List (Param × Value)} {ec : EvalContext} {w : World}
    (hfresh : EmitContext.Fresh scope hidden s.code.locals.size code.locals.size)
    (hle : s.code.locals.size ≤ code.locals.size) (hvars : scope.map Prod.fst = vars.map Prod.fst) :
    Sound limit ⟨⟨ec, s.vars ++ vars.toArray, w⟩, s.ctx.enter scope hidden, code⟩ where
  fits := h.fits.enter hfresh hle
  tokens := by
    rw [EmitContext.slots_enter, Array.toList_append, List.map_append, List.map_append, h.tokens, ← hvars]
    simp
  layout := h.layout

/-- More code, and other values for the same variables. -/
theorem Sound.later {limit : Nat} (h : s.Sound limit) {code : Builder} {vars : Activation} {w : World}
    (hcode : s.code.locals.size ≤ code.locals.size) (hvars : vars.toList.map Prod.fst = s.vars.toList.map Prod.fst) :
    Sound limit ⟨⟨s.ec, vars, w⟩, s.ctx, code⟩ where
  fits := ⟨h.fits.apart, fun p i hp => (h.fits.locals p i hp).trans_le hcode,
    fun i hi => ⟨(h.fits.hidden i hi).1.trans_le hcode, (h.fits.hidden i hi).2⟩, h.fits.params, h.fits.few⟩
  tokens := h.tokens.trans hvars.symm
  layout := h.layout

/-- In front of the variables of an inner scope stand those around it. -/
theorem Sound.tokens_take {limit : Nat} {i : Site} (h : s.Sound limit) (hi : i.Sound limit)
    {scope : List (Param × Nat)} {hidden : List Nat} (hctx : i.ctx = s.ctx.enter scope hidden) :
    (i.vars.take s.vars.size).toList.map Prod.fst = s.vars.toList.map Prod.fst := by
  have hlen : s.vars.size = (s.ctx.slots.map Prod.fst).length := by
    rw [h.tokens]
    simp
  have htake : (i.vars.take s.vars.size).toList = i.vars.toList.take s.vars.size := by simp
  rw [htake, List.map_take, ← hi.tokens, hctx, EmitContext.slots_enter, List.map_append, hlen,
    List.take_left, h.tokens]

end Site

theorem Emit.declare_inv {ctx : EmitContext} : ∀ {vars : List Param} {b b' : Builder} {scope : List (Param × Nat)},
    Emit.declare vars ctx b = .ok (scope, b') → b'.locals.size ≤ Nat.pow 2 16 →
    scope = vars.zipIdx b.locals.size ∧ b'.locals.size = b.locals.size + vars.length
  | [], b, b', scope, h, _ => by
    cases h
    exact ⟨rfl, rfl⟩
  | p :: ps, b, b', scope, h, hfew => by
    rw [Emit.declare, List.mapM_cons] at h
    obtain ⟨v, b₁, hv, h⟩ := EmitM.bind_eq_ok h
    obtain ⟨vs, b₂, hvs, hpure⟩ := EmitM.bind_eq_ok h
    cases hpure
    obtain ⟨rfl, hw⟩ := Emit.fresh_inv hv
    have hsize : b₁.locals.size = b.locals.size + 1 := by
      rw [hw.locals]
      simp [Builder.newLocal]
    obtain ⟨rfl, hsize'⟩ := Emit.declare_inv hvs hfew
    refine ⟨?_, by rw [hsize', hsize, List.length_cons]; omega⟩
    rw [List.zipIdx_cons, hsize, Nat.mod_eq_of_lt (by omega)]

/-- A clause keeps the exception in the next local, and its variable in the one after that. -/
theorem Emit.catching_inv {ctx : EmitContext} {b b' : Builder} {c : CatchClause Emitted} {hidden : Nat}
    {scope : List (Param × Nat)} (h : Emit.catching c ctx b = .ok ((hidden, scope), b'))
    (hfew : b'.locals.size ≤ Nat.pow 2 16) :
    hidden = b.locals.size ∧ scope = c.var.toList.zipIdx (b.locals.size + 1) ∧
      b'.locals.size = b.locals.size + 1 + c.var.toList.length := by
  obtain ⟨i, b₁, hnew, h⟩ := EmitM.bind_eq_ok h
  rw [EmitM.newLocal_apply] at hnew
  cases hnew
  rcases hvar : c.var with _ | p <;> rw [hvar] at h
  · obtain ⟨⟨⟩, b₂, hstore, hpure⟩ := EmitM.bind_eq_ok h
    cases hpure
    have hsize : b'.locals.size = b.locals.size + 1 := by
      rw [(EmitM.writes_emit hstore).locals]
      simp [Builder.newLocal]
    exact ⟨Nat.mod_eq_of_lt (by omega), rfl, hsize⟩
  · obtain ⟨j, b₂, hnew, h⟩ := EmitM.bind_eq_ok h
    rw [EmitM.newLocal_apply] at hnew
    cases hnew
    obtain ⟨⟨⟩, b₃, hdup, h⟩ := EmitM.bind_eq_ok h
    obtain ⟨⟨⟩, b₄, hhidden, h⟩ := EmitM.bind_eq_ok h
    obtain ⟨⟨⟩, b₅, hstore, hpure⟩ := EmitM.bind_eq_ok h
    cases hpure
    have hsize : b'.locals.size = b.locals.size + 1 + 1 := by
      rw [(((EmitM.writes_emit hdup).append (EmitM.writes_emit hhidden)).append (EmitM.writes_emit hstore)).locals]
      simp [Builder.newLocal]
    have hmod : (b.locals.size + 1) % Nat.pow 2 16 = b.locals.size + 1 := Nat.mod_eq_of_lt (by omega)
    exact ⟨Nat.mod_eq_of_lt (by omega), by simp [Builder.newLocal, hmod], hsize⟩

namespace Reached

variable {operators : Overloads} {limit : Nat} {s : Site} {sites : List Site}

theorem sound (h : Reached operators limit (s :: sites)) (hs : s.Countable) : s.Sound limit := by
  -- by induction on how the place is reached: what each step does to the activation is read off the evaluator
  generalize hl : s :: sites = l at h
  induction h generalizing s sites with
  | root hbind _ | lambda _ _ _ hbind _ _ =>
    cases hl
    obtain ⟨hargs, rfl⟩ := Eval.binding_here hbind
    refine ⟨Bridge.fits_start hs.distinct hs.formals, ?_, rfl⟩
    simp [EmitContext.slots, Site.start, List.map_fst_zip, hargs, Function.comp_def]
  | @between s₀ _ _ _ _ hcode _ ih =>
    cases hl
    exact (ih (s := s₀) ⟨hs.distinct, hs.formals, hcode.trans hs.locals, hs.items⟩ rfl).later hcode rfl
  | @assigned s₀ _ _ _ _ _ hwrite ih =>
    cases hl
    exact (ih (s := s₀) ⟨hs.distinct, hs.formals, hs.locals, hs.items⟩ rfl).later le_rfl (EvalM.write_tokens hwrite).1
  | @left s₀ i _ _ _ _ _ _ _ _ _ hctx hcode _ hx hleave ih ihi =>
    cases hl
    have h₀ := ih (s := s₀) ⟨hs.distinct, hs.formals, hcode.trans hs.locals, hs.items⟩ rfl
    have hi := ihi (s := i) ⟨hctx ▸ hs.distinct, hctx ▸ hs.formals, hs.locals, hctx ▸ hs.items⟩ rfl
    -- inside of the scope the tokens around it come first, and those stay
    obtain rfl := EvalM.within_eq hx hleave
    exact h₀.later hcode (h₀.tokens_take hi hctx)
  | @block s₀ _ vars scope code _ _ _ hd hin ih =>
    cases hl
    obtain rfl := EvalM.within_here hin
    obtain ⟨rfl, hsize⟩ := Emit.declare_inv hd hs.locals
    have hlocals : code.locals.size ≤ Nat.pow 2 16 := hs.locals
    have h₀ := ih (s := s₀) ⟨hs.distinct, hs.formals, by omega, hs.items⟩ rfl
    refine h₀.enter ⟨fun v hv => ?_, ?_, by simp⟩ (by omega) (by simp [Function.comp_def])
    · obtain ⟨hge, hlt, -⟩ := List.mem_zipIdx hv
      exact ⟨hge, by omega⟩
    · rw [List.zipIdx_map_snd]
      exact List.nodup_range'
  | @clause s₀ _ c hidden scope code exn _ _ _ _ _ hf hcatch haccepts hin ih =>
    cases hl
    obtain ⟨rfl, rfl⟩ := Eval.accepted?_eq_some (by simp [CatchClause.map, hf]) haccepts
    obtain rfl := EvalM.catching_here hin
    obtain ⟨rfl, rfl, hsize⟩ := Emit.catching_inv hcatch hs.locals
    have hlocals : code.locals.size ≤ Nat.pow 2 16 := hs.locals
    have h₀ := ih (s := s₀) ⟨hs.distinct, hs.formals, by omega, hs.items⟩ rfl
    refine h₀.enter ⟨fun v hv => ?_, ?_, ?_⟩ (by omega) (by simp [CatchClause.map, Function.comp_def])
    · obtain ⟨hge, hlt, -⟩ := List.mem_zipIdx hv
      exact ⟨by omega, by omega⟩
    · rw [List.zipIdx_map_snd]
      exact List.nodup_range'
    · intro i hi
      obtain rfl : i = s₀.code.locals.size := by simpa using hi
      -- the local of the exception lies below that of the clause's variable
      refine ⟨le_rfl, by omega, fun v hv => ?_⟩
      have hge := (List.mem_zipIdx hv).1
      omega

/-- A unit with captured tokens is a lambda's, inside of the place that created it. -/
theorem outside (h : Reached operators limit (s :: sites)) :
    (sites = [] ∧ s.ctx.capture.params = []) ∨ ∃ o rest, sites = o :: rest ∧ Reached operators limit (o :: rest) ∧
      (∀ q ∈ s.ctx.capture.params, ∃ x, EmitM.resolve q o.ctx o.code = .ok (x, o.code)) ∧
      s.captured.toList.map Prod.fst = (o.captured ++ o.vars).toList.map Prod.fst := by
  generalize hl : s :: sites = l at h
  induction h generalizing s sites with
  | root _ hroot =>
    cases hl
    exact .inl ⟨rfl, hroot⟩
  | lambda h hnew hkept hbind hloads _ =>
    cases hl
    obtain ⟨-, rfl⟩ := Eval.binding_here hbind
    rw [Eval.capturedBy_instantiate hnew] at hkept
    exact .inr ⟨_, _, rfl, h, hloads, hkept⟩
  | @between s₀ _ _ _ _ _ hkept ih =>
    cases hl
    rw [EvalPoint.captured, hkept]
    exact ih (s := s₀) rfl
  | @assigned s₀ _ _ _ _ _ hwrite ih =>
    cases hl
    rw [EvalPoint.captured, (EvalM.write_tokens hwrite).2]
    exact ih (s := s₀) rfl
  | @left s₀ i _ _ _ _ _ _ _ _ _ hctx _ hself hx hleave _ ihi =>
    cases hl
    obtain rfl := EvalM.within_eq hx hleave
    have hi := ihi (s := i) rfl
    rw [hctx, EvalPoint.captured, hself] at hi
    exact hi
  | @block s₀ _ _ _ _ _ _ _ _ hin ih =>
    cases hl
    obtain rfl := EvalM.within_here hin
    exact ih (s := s₀) rfl
  | @clause s₀ _ _ _ _ _ _ _ _ _ _ _ hf _ haccepts hin ih =>
    cases hl
    obtain ⟨-, rfl⟩ := Eval.accepted?_eq_some (by simp [CatchClause.map, hf]) haccepts
    obtain rfl := EvalM.catching_here hin
    exact ih (s := s₀) rfl

theorem all_sound {sites : List Site} {s : Site} (h : Reached operators limit (s :: sites))
    (hc : ∀ t ∈ s :: sites, t.Countable) : ∀ t ∈ s :: sites, t.Sound limit ∧ t.Countable := by
  intro t ht
  refine ⟨?_, hc t ht⟩
  rcases List.mem_cons.1 ht with rfl | ht
  · exact h.sound (hc _ (by simp))
  · rcases h.outside with ⟨rfl, -⟩ | ⟨o, rest, rfl, ho, -⟩
    · cases ht
    · exact (ho.all_sound (fun t ht => hc t (List.mem_cons_of_mem _ ht)) t ht).1
termination_by sites.length

/-- The evaluator finds the binding that emission has chosen. -/
theorem finds {sites : List Site} {s : Site} (h : Reached operators limit (s :: sites))
    (hc : ∀ t ∈ s :: sites, t.Countable) {p : Param} {x : FrameVar} {b : Builder}
    (hx : EmitM.resolve p s.ctx s.code = .ok (x, b)) : ∃ y, s.Finds p y ∧ SameBinding (s :: sites) x y := by
  have hs := h.sound (hc s (by simp))
  rcases (EmitM.resolve_inv hx hs.fits).2 with ⟨i, hin⟩ | ⟨slot, rfl, hout, i, l, hi, hl, hslot⟩
  · obtain ⟨v, hv⟩ := hin.of_tokens hs.tokens.symm
    exact ⟨.own i, .own hv, .own hin.here⟩
  · obtain ⟨hlt, hp, -⟩ := List.findIdx?_eq_some_iff_getElem.1 hi
    have hp : s.ctx.capture.params[i]? = some p := by
      rw [List.getElem?_eq_getElem hlt]
      simpa using hp
    rcases h.outside with ⟨-, hnil⟩ | ⟨o, rest, rfl, ho, hloads, htokens⟩
    · rw [hnil] at hp
      cases hp
    · -- the item was loaded where the lambda was created, by induction from the same binding
      obtain ⟨x, hx⟩ := hloads p (List.mem_of_getElem? hp)
      obtain ⟨y, hy, hb⟩ := ho.finds (fun t ht => hc t (List.mem_cons_of_mem _ ht)) hx
      obtain ⟨v, j, hj, hin⟩ := hy.seen
      obtain ⟨v, hin⟩ := hin.of_tokens htokens
      have hown : ∀ a ∈ s.vars.toList, a.1 ≠ p := by
        intro a ha
        obtain ⟨⟨q, z⟩, hz, he⟩ := List.mem_map.1 (hs.tokens ▸ List.mem_map_of_mem (f := Prod.fst) ha)
        rw [← he]
        exact hout _ hz
      refine ⟨o.seen y, hj ▸ .captured hown hin, .item hl hp hslot hx hb⟩
termination_by sites.length

end Reached

/-- What emission keeps in a variable of the frame is one binding. -/
theorem SameBinding.unique {limit : Nat} {sites : List Site} {x : FrameVar} {y y' : EvalVar}
    (hs : ∀ s ∈ sites, s.Sound limit ∧ s.Countable) (h : SameBinding sites x y) (h' : SameBinding sites x y') :
    y' = y := by
  induction h generalizing y' with
  | @own s sites i p x hx =>
    have hs := (hs s (by simp)).1
    cases h' with
    | @own _ _ j q _ hx' =>
      have hsnd : (s.ctx.slots.map Prod.snd)[j]? = (s.ctx.slots.map Prod.snd)[i]? := by
        rw [List.getElem?_map, List.getElem?_map, hx, hx']
        rfl
      have hj : j < (s.ctx.slots.map Prod.snd).length := by
        rw [List.length_map]
        exact (List.getElem?_eq_some_iff.1 hx').1
      rw [(List.getElem?_inj hj hs.fits.apart).1 hsnd]
    | item _ _ _ _ _ =>
      rcases EmitContext.mem_slots (List.mem_of_getElem? hx) with ⟨k, hk⟩ | ⟨k, hk⟩ <;> cases hk
  | @item s o sites l i slot p x y hl hp hslot hx hb ih =>
    generalize hz : FrameVar.closure slot = z at h'
    cases h' with
    | own hx' =>
      subst hz
      rcases EmitContext.mem_slots (List.mem_of_getElem? hx') with ⟨k, hk⟩ | ⟨k, hk⟩ <;> cases hk
    | @item _ _ _ l' j slot' q x' y' hl' hq hslot' hx' hb' =>
      cases hz
      obtain rfl : l = l' := by simpa [hl] using hl'
      obtain ⟨hsound, hcount⟩ := hs s (by simp)
      -- as long as 16 bits can number the items, a slot is the slot of one of them
      have hsize : l.size ≤ Nat.pow 2 16 := by
        have hlayout := hsound.layout.symm.trans hl
        unfold Capture.layout? at hlayout
        split at hlayout
        · cases hlayout
        · cases hlayout
          rw [Capture.size_layout]
          exact hcount.items
      obtain ⟨-, he⟩ := (Layout.slot_eq_ok hsize).1 hslot
      obtain ⟨-, he'⟩ := (Layout.slot_eq_ok hsize).1 hslot'
      obtain rfl : i = j := by omega
      obtain rfl : p = q := by simpa [hp] using hq
      obtain rfl : x = x' := by simpa [hx] using hx'
      rw [ih (fun t ht => hs t (List.mem_cons_of_mem _ ht)) hb']

/-- A token that the unit declares or captures has a place. -/
theorem Site.Sound.resolve {limit : Nat} {s : Site} (hs : s.Sound limit) {p : Param}
    (hp : p ∈ s.vars.toList.map Prod.fst ∨ p ∈ s.ctx.capture.params) :
    ∃ x, EmitM.resolve p s.ctx s.code = .ok (x, s.code) := by
  simp only [EmitM.resolve, EmitM.bind_apply, EmitM.read_apply]
  rcases hlocal : EmitM.localOf? s.ctx.scopes p with _ | i
  · rcases hformal : s.ctx.params.findIdx? (· == p) with _ | i
    · have hcaptured : p ∈ s.ctx.capture.params := by
        refine hp.resolve_left fun hvar => ?_
        rw [← hs.tokens, EmitContext.slots, List.map_append, List.mem_append] at hvar
        rcases hvar with hvar | hvar
        · have hmem : p ∈ s.ctx.params := by simpa [Function.comp_def] using hvar
          simpa using List.findIdx?_eq_none_iff.1 hformal p hmem
        · simp only [List.map_map, List.mem_map, Function.comp_def] at hvar
          obtain ⟨v, hv, rfl⟩ := hvar
          rw [EmitM.localOf?_eq, Option.map_eq_none_iff] at hlocal
          simpa using List.find?_eq_none.1 hlocal v (List.mem_reverse.2 hv)
      have hpos := List.length_pos_of_mem hcaptured
      have hl : s.ctx.layout = some (s.ctx.capture.layout limit) := by
        have hempty : s.ctx.capture.isEmpty = false := by
          simp only [Capture.isEmpty, Capture.size, beq_eq_false_iff_ne]
          omega
        rw [hs.layout, Capture.layout?, hempty]
        rfl
      rcases hi : s.ctx.capture.paramIndex? p with _ | i
      · simpa using List.findIdx?_eq_none_iff.1 hi p hcaptured
      · have hlt : i < (s.ctx.capture.layout limit).count .param := by
          rw [Layout.count, Capture.layout, Layout.ofTypes, List.length_map]
          exact (List.findIdx?_eq_some_iff_getElem.1 hi).1
        simp only [hl, Layout.slot, if_pos hlt]
        exact ⟨_, rfl⟩
    · exact ⟨_, rfl⟩
  · exact ⟨_, rfl⟩

/-- Emission and evaluation resolve a token to the same binding, which the chosen variable of the frame holds alone. -/
theorem Reached.resolve_eq_lookup {operators : Overloads} {limit : Nat} {s : Site} {sites : List Site}
    (h : Reached operators limit (s :: sites)) (hc : ∀ t ∈ s :: sites, t.Countable) {p : Param}
    (hp : p ∈ s.vars.toList.map Prod.fst ∨ p ∈ s.ctx.capture.params) :
    ∃ x y, EmitM.resolve p s.ctx s.code = .ok (x, s.code) ∧
      EvalM.lookup p s.ec (s.vars, s.w) = (.ok y, s.vars, s.w) ∧
      SameBinding (s :: sites) x y ∧ ∀ y', SameBinding (s :: sites) x y' → y' = y := by
  obtain ⟨x, hx⟩ := (h.sound (hc s (by simp))).resolve hp
  obtain ⟨y, hy, hb⟩ := h.finds hc hx
  exact ⟨x, y, hx, hy.lookup, hb, fun y' hb' => hb.unique (h.all_sound hc) hb'⟩

/-- A lambda in a catch body whose variable hides the formal `x`; the lambda uses `x`. -/
theorem Reached.resolve_eq_lookup_hidden :
    let x : Param := ⟨0, "x", .bool⟩
    let lib : Library := ⟨[], fun _ call h => .finish call.receiver (.ok .null) h⟩
    let inv : Invoker := fun _ _ w => (.error .exhausted, w)
    let body : Tree := .node 0 .bool (.parameter x)
    let c : CatchClause Tree := ⟨.bool, some x, none, body⟩
    let root := Site.start ⟨⟨lib, inv, none, []⟩, #[(x, .bool true)], {}⟩ [] 8 "root" [x] .bool {}
    ∃ code, Emit.catching (c.map (.of Tree.emission)) root.ctx { root.code with depth := some 1 } =
        .ok ((0, [(x, 1)]), code) ∧
      let outer : Site := ⟨⟨⟨lib, inv, none, [.bool false]⟩, #[(x, .bool true), (x, .bool false)], {}⟩,
        root.ctx.enter [(x, 1)] [0], code⟩
      let w : World := { lambdas := #[⟨none, [], body, outer.vars⟩] }
      let inner := Site.start ⟨⟨lib, inv, some ⟨0⟩, []⟩, #[], w⟩ [] 8 "lambda" [] .bool { params := [x] }
      Reached [] 8 [inner, outer] ∧ ∃ a y, EmitM.resolve x inner.ctx inner.code = .ok (a, inner.code) ∧
        EvalM.lookup x inner.ec (inner.vars, w) = (.ok y, inner.vars, w) ∧ SameBinding [inner, outer] a y ∧
        ∀ y', SameBinding [inner, outer] a y' → y' = y := by
  intro x lib inv body c root
  refine ⟨_, rfl, ?_⟩
  intro outer w inner
  have hbind : Eval.binding lib inv none "root" [x] [.bool true] EvalM.here {} = (.ok root.toEvalPoint, {}) := rfl
  let caught : Site := { root with code := { root.code with depth := some 1 } }
  have hcaught : Reached [] 8 [caught] := .between (s := root) (.root hbind rfl) le_rfl rfl
  have haccepts : Eval.accepted? (.bool false) (c.map (.of Tree.meaning)) root.ec (root.vars, root.w) =
      (.ok (some [(x, .bool false)]), root.vars, root.w) := rfl
  have houter : Reached [] 8 [outer] := .clause (s := caught) (c := c) hcaught rfl rfl haccepts rfl
  have hnew : Eval.instantiate [] body none outer.ec (outer.vars, outer.w) =
      (.ok (.func (.interpreted ⟨0⟩)), outer.vars, w) := rfl
  have hcall : Eval.binding lib inv (some ⟨0⟩) "lambda" [] [] EvalM.here w = (.ok inner.toEvalPoint, w) := rfl
  have hinner : Reached [] 8 [inner, outer] := by
    refine .lambda houter hnew rfl hcall fun q hq => ?_
    obtain rfl : q = x := by simpa using hq
    exact ⟨.localVar 1, rfl⟩
  refine ⟨hinner, hinner.resolve_eq_lookup (fun t ht => ?_) (.inr (by simp [inner, Site.start]))⟩
  simp only [List.mem_cons, List.not_mem_nil, or_false] at ht
  obtain rfl | rfl := ht
  · exact ⟨by simp [inner, Site.start], by decide, by decide, by decide⟩
  · exact ⟨by simp [outer, root, Site.start, EmitContext.enter], by decide, by decide, by decide⟩

/-- Of formals that repeat a token, emission takes the first and evaluation the last. -/
theorem Reached.resolve_ne_lookup_repeated :
    let x : Param := ⟨0, "x", .bool⟩
    let lib : Library := ⟨[], fun _ call h => .finish call.receiver (.ok .null) h⟩
    let inv : Invoker := fun _ _ w => (.error .exhausted, w)
    ∃ p, Eval.binding lib inv none "root" [x, x] [.bool true, .bool false] EvalM.here {} = (.ok p, {}) ∧
      let s := Site.start p [] 8 "root" [x, x] .bool {}
      Reached [] 8 [s] ∧ EmitM.resolve x s.ctx s.code = .ok (.arg 0, s.code) ∧
        EvalM.lookup x s.ec (s.vars, s.w) = (.ok (.own 1), s.vars, s.w) ∧ ¬ SameBinding [s] (.arg 0) (.own 1) := by
  intro x lib inv
  have hbind : Eval.binding lib inv none "root" [x, x] [.bool true, .bool false] EvalM.here {} = (.ok _, {}) := rfl
  refine ⟨_, hbind, .root hbind rfl, rfl, rfl, fun h => ?_⟩
  cases h with
  | own hx => cases hx

end ExprCompiler
