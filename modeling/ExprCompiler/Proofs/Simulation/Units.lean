/-
Calls of emitted units. The code of a unit is the code of its body's value and a return; where that code
simulates a computation of the evaluator, a run of the unit with fuel for all of its code comes to what the
computation comes to.
-/
import ExprCompiler.Proofs.Compile.Discipline
import ExprCompiler.Proofs.Simulation.Regions
import ExprCompiler.Proofs.Simulation.Values

namespace ExprCompiler

/-! ## Finished code -/

namespace Emit

open EmitM

variable {ctx : EmitContext} {t : Tree} {ret : Ty} {name : String} {u : CodeUnit}

/-- The parts of a unit's code. -/
structure UnitCode (ctx : EmitContext) (t : Tree) (ret : Ty) (name : String) (u : CodeUnit) (b b' : Builder)
    (D D' : Nat → Option Nat) : Prop where
  result : result t ret ctx (start name ctx.params ret ctx.layout) = .ok ((), b)
  adds : Adds [] 0 1 (start name ctx.params ret ctx.layout) (fun _ => none) b D
  returns : b.Writes b' [.ret]
  grows : Builder.Grows [] b D b' D'
  finish : b'.finish = .ok u

theorem unit_inv {operators : Overloads} {params : List Param} {capture : Capture} {layout : Option Layout}
    (hemits : Emits { operators, params, capture, layout } 0 1 (result t ret))
    (h : unit operators name t params ret capture layout = .ok u) :
    ∃ b b' D D', UnitCode { operators, params, capture, layout } t ret name u b b' D D' := by
  unfold unit at h
  split at h
  · cases h
  rename_i b' hbody
  split at h
  case h_2 => cases h
  rename_i hfinish
  cases h
  obtain ⟨⟨⟩, b, hresult, hret⟩ := EmitM.bind_eq_ok hbody
  obtain ⟨D, hadds⟩ := (hemits _ _ (tracks_start name params ret layout) (by simp)).result hresult
  have hone : ∀ d, b.depth = some d → Instr.pops .ret ≤ d ∧ (Instr.ret = .ret → d = 1) := by
    intro d hd
    obtain ⟨d₀, h₀, hsum⟩ := hadds.shifts d hd
    cases h₀
    exact ⟨by simp [Instr.pops]; omega, fun _ => by omega⟩
  obtain ⟨b'', D', hemit, ht', hg', -⟩ := hadds.tracks.emit rfl (by simp) hone
  obtain rfl : b'' = b' := by
    rw [EmitM.build_inv hret] at hemit
    exact (Except.ok.inj hemit).symm
  exact ⟨b, b'', D, D', hresult, hadds, EmitM.writes_emit hret, hg', hfinish⟩

variable {b b' : Builder} {D D' : Nat → Option Nat}

theorem UnitCode.links (h : UnitCode ctx t ret name u b b' D D') (hfew : u.locals.size ≤ Nat.pow 2 16) :
    b'.Links u ∧ b.Links u := by
  have hlink : b'.Links u := .of_finish h.finish (by rw [← (Builder.finished h.finish).locals]; exact hfew)
  exact ⟨hlink, hlink.mono h.grows (by simp)⟩

theorem UnitCode.head (h : UnitCode ctx t ret name u b b' D D') :
    u.name = name ∧ u.params = ctx.params.map Param.ty ∧ u.layout = ctx.layout := by
  obtain ⟨hname, hparams, hlayout⟩ := (h.adds.grows.trans h.grows).head
  obtain ⟨hname', hparams', hlayout'⟩ := (Builder.finished h.finish).head
  exact ⟨hname'.trans hname, hparams'.trans hparams, hlayout'.trans hlayout⟩

end Emit

/-! ## Runs of a unit -/

namespace Bridge

variable {B : Bridge} {α : Type}

variable (B) in
/-- A call comes to what a computation of the evaluator comes to. -/
def Returns (κ : B.Stage) (Post : B.Stage → α → Value → Prop) (r : Except Stop Value × World) :
    Except Stop α × Activation × World → Prop
  | (.ok a, _, wE') => ∃ κ' v, κ ≤ κ' ∧ r.1 = .ok v ∧ Post κ' a v ∧ B.world κ' r.2 wE'
  | (.error stop, _, wE') => ∃ κ' stop', κ ≤ κ' ∧ r.1 = .error stop' ∧ B.ends κ' stop' r.2 stop wE'

/-- A unit comes to what its body comes to, with fuel for all of its code or where nothing is said of a run
that is cut short. -/
theorem run_returns {ctx : EmitContext} {t : Tree} {ret : Ty} {name : String} {u : CodeUnit} {b b' : Builder}
    {D D' : Nat → Option Nat} {e : EvalM α} {Post : B.Stage → α → Value → Prop} {κ : B.Stage} {f : Frame}
    {vars : Activation} {w wE : World} {fuel : Nat}
    (hcode : Emit.UnitCode ctx t ret name u b b' D D')
    (hsim : B.Sim ctx 0 1 (fun _ vs => vs = []) (Emit.result t ret) e fun κ a vs => ∃ v, vs = [v] ∧ Post κ a v)
    (hfew : u.locals.size ≤ Nat.pow 2 16) (hfit : ctx.Fits (Emit.start name ctx.params ret ctx.layout))
    (hf : f.stack = [] ∧ f.pending = [] ∧ f.locals.size = u.locals.size) (hcorr : B.Corresponds ctx κ [] f vars)
    (hw : B.world κ w wE) (hfuel : B.machineExcused .exhausted ∨ u.instrs.size ≤ fuel) :
    B.Excused (fun stop => (u.run B.machine fuel ⟨0, f, w⟩).1 = .error stop) (e (B.eval []) (vars, wE)) ∨
      B.Returns κ Post (u.run B.machine fuel ⟨0, f, w⟩) (e (B.eval []) (vars, wE)) := by
  obtain ⟨hstack, hpending, hlocals⟩ := hf
  obtain ⟨hlink', hlink⟩ := hcode.links hfew
  have hfinished := Builder.finished hcode.finish
  have hready : B.Ready ctx u (Emit.start name ctx.params ret ctx.layout) κ [] f vars w wE :=
    ⟨by rw [hstack]; rfl, by rw [hpending]; rfl, hlocals, hcorr, hw⟩
  have hpast : (Emit.start name ctx.params ret ctx.layout).Past := fun e he => by simp [Emit.start] at he
  rw [show 0 = (Emit.start name ctx.params ret ctx.layout).pc from rfl]
  -- a run that is cut short is one of which nothing is said
  have hshort : ∀ {f' : Frame}, ((u.run B.machine fuel ⟨(Emit.start name ctx.params ret ctx.layout).pc, f', w⟩).1 =
      .error .exhausted ∧ fuel + (Emit.start name ctx.params ret ctx.layout).pc < u.instrs.size) →
      B.Excused (fun stop => (u.run B.machine fuel ⟨(Emit.start name ctx.params ret ctx.layout).pc, f', w⟩).1 =
        .error stop) (e (B.eval []) (vars, wE)) := by
    rintro f' ⟨hexh, hlt⟩
    exact .inr ⟨.exhausted, hfuel.resolve_right (by omega), hexh⟩
  have hunhandled : ∀ {pc v}, (∀ e ∈ b.handlers, Handler.accepts e pc v = false) →
      u.handlers.find? (·.accepts pc v) = none := by
    intro pc v h
    rw [List.find?_eq_none, hfinished.handlers, hcode.returns.handlers]
    intro e he
    rw [h e (Array.mem_toList_iff.1 he)]
    exact Bool.false_ne_true
  have hout := hsim.runs (Emit.tracks_start _ _ _ _) hfit hpast hcode.result hlink hready hstack rfl rfl
  rcases hout with hexc | hends
  · rcases hexc with hE | ⟨stop, hM, pc, f', w', hstops, -, hun⟩
    · exact .inl (.inl hE)
    · rcases hstops.run_or (fun v hv => hunhandled (hun v hv)) fuel with hexh | hrun
      · exact .inl (hshort hexh)
      · exact .inl (.inr ⟨stop, hM, by rw [hrun]⟩)
  · rcases hval : e (B.eval []) (vars, wE) with ⟨stop | a, vars', wE'⟩ <;> rw [hval] at hends hshort
    · obtain ⟨κ', f', w', pc, stop', hfail, hstop⟩ := hends
      refine (hfail.stops.run_or (fun v hv => hunhandled (hfail.unhandled v hv)) fuel).imp hshort fun hrun => ?_
      exact ⟨κ', stop', hfail.after.stage, by rw [hrun], by rw [hrun]; exact hstop⟩
    · obtain ⟨κ', f', w', vs, harr, -, ⟨v, rfl, hpost⟩, hw'⟩ := hends
      have hret : u.instrs[b.pc]? = some .ret := by
        refine hlink'.plain _ _ (.plain ?_ rfl)
        rw [← Array.getElem?_toList, hcode.returns.instrs, List.getElem?_append_right (by simp [Builder.pc])]
        simp [Builder.pc]
      have hstack' : f'.stack = v :: [] := by
        rw [harr.stack]
        rfl
      have hexec : MachineM.exec .ret B.machine (f', w') = (.ok (.ret v), { f' with stack := [] }, w') := by
        rw [MachineM.exec, Act.bind_ok (MachineM.pop_apply hstack')]
        rfl
      have hlt := (Array.getElem?_eq_some_iff.1 hret).1
      refine (CodeUnit.run_reaches harr.advances hlt fuel).imp hshort fun hran => ?_
      obtain ⟨n, hrun⟩ := hran
      have hstep : u.run B.machine (n + 1) ⟨b.pc, f', w'⟩ = (.ok v, w') := by
        rw [CodeUnit.run]
        simp only [CodeUnit.step, hret, hexec]
      rw [hrun, hstep]
      exact ⟨κ', v, harr.after.stage, rfl, hpost, hw'⟩

/-- The variables of a unit at its start are its formals. -/
theorem fits_start {operators : Overloads} {params : List Param} {capture : Capture} {layout : Option Layout}
    {b : Builder} (hnodup : params.Nodup) (hfew : params.length < Nat.pow 2 16) :
    EmitContext.Fits { operators, params, capture, layout } b := by
  refine ⟨?_, ?_, by simp, hnodup, hfew⟩
  · simp only [EmitContext.slots, List.reverse_nil, List.flatten_nil, List.map_nil, List.append_nil, List.map_map]
    have hindex : (Prod.snd ∘ fun x : Param × Nat => (x.1, FrameVar.arg (if layout.isSome then x.2 + 1 else x.2))) =
        (fun i => FrameVar.arg (if layout.isSome then i + 1 else i)) ∘ Prod.snd := rfl
    rw [hindex, ← List.map_map, List.zipIdx_map_snd]
    refine List.Nodup.map (fun i j h => ?_) List.nodup_range'
    split at h <;> cases h <;> rfl
  · intro p i hi
    simp [EmitContext.slots] at hi

/-- The variables of a call are the arguments, which follow the closure if the unit has one. -/
theorem corresponds_start {operators : Overloads} {params : List Param} {capture : Capture} {layout : Option Layout}
    {closure : Option ClosureRef} {u : CodeUnit} {κ : B.Stage} {args as : List Value}
    (hclosure : layout.isSome = closure.isSome) (hargs : args.length = params.length) (has : as.length = params.length)
    (h : ∀ (i : Nat) p v a, params[i]? = some p → args[i]? = some v → as[i]? = some a → B.value κ p.ty v a) :
    B.Corresponds { operators, params, capture, layout } κ [] (u.frame closure args) (params.zip as).toArray := by
  refine ⟨?_, .nil⟩
  simp only [EmitContext.slots, List.reverse_nil, List.flatten_nil, List.map_nil, List.append_nil]
  rw [List.forall₂_iff_get]
  refine ⟨by simp [has], fun i h₁ h₂ => ?_⟩
  have hi : i < params.length := by simpa using h₁
  refine ⟨by simp, args[i], ?_, ?_⟩
  · cases closure <;> simp [hclosure, Frame.var?, CodeUnit.frame, hargs, hi]
  · simpa using h i params[i] args[i] as[i] (List.getElem?_eq_getElem hi) (List.getElem?_eq_getElem _)
      (List.getElem?_eq_getElem _)

end Bridge

end ExprCompiler
