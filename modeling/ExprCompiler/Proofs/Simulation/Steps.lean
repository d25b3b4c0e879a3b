/-
Runs of emitted code. Emitted code only ever goes down: every step, also one to a handler, leads to a
later instruction, so the length of the code bounds its runs. Pieces of straight code run as the
sequence of their effects.
-/
import ExprCompiler.Proofs.Emit.Rules
import ExprCompiler.Proofs.Machine.Depth

namespace ExprCompiler

/-! ## Runs down the code -/

namespace CodeUnit

variable {u : CodeUnit} {fc : FrameContext} {s s' s'' : MachineState}

/-- A step that leads to a later instruction. -/
structure Advance (u : CodeUnit) (fc : FrameContext) (s s' : MachineState) : Prop where
  step : u.step fc s = .running s'
  later : s.pc < s'.pc

/-- A run of such steps. -/
def Advances (u : CodeUnit) (fc : FrameContext) : MachineState → MachineState → Prop :=
  Relation.ReflTransGen (u.Advance fc)

theorem Advances.refl : u.Advances fc s s := Relation.ReflTransGen.refl

theorem Advances.trans (h : u.Advances fc s s') (h' : u.Advances fc s' s'') : u.Advances fc s s'' :=
  Relation.ReflTransGen.trans h h'

theorem Advance.advances (h : u.Advance fc s s') : u.Advances fc s s' := Relation.ReflTransGen.single h

theorem Advances.pc_le (h : u.Advances fc s s') : s.pc ≤ s'.pc := by
  induction h with
  | refl => exact le_rfl
  | tail _ hstep ih => exact ih.trans hstep.later.le

theorem Advance.pc_lt (h : u.Advance fc s s') : s.pc < u.instrs.size := by
  have hstep := h.step
  unfold CodeUnit.step at hstep
  by_contra hge
  rw [Array.getElem?_eq_none (by omega)] at hstep
  cases hstep

theorem run_succ (h : u.step fc s = .running s') (n : Nat) : u.run fc (n + 1) s = u.run fc n s' := by
  rw [run, h]

/-- Fuel for the rest of the code is enough: after a run there is still fuel for the rest from there. -/
theorem run_of_advances (h : u.Advances fc s s') : ∀ fuel, u.instrs.size ≤ fuel + s.pc →
    ∃ fuel', u.instrs.size ≤ fuel' + s'.pc ∧ u.run fc fuel s = u.run fc fuel' s' := by
  induction h using Relation.ReflTransGen.head_induction_on with
  | refl => exact fun fuel hf => ⟨fuel, hf, rfl⟩
  | head hstep _ ih =>
    intro fuel hf
    have hlt := hstep.pc_lt
    have hlater := hstep.later
    obtain ⟨n, rfl⟩ : ∃ n, fuel = n + 1 := ⟨fuel - 1, by omega⟩
    obtain ⟨fuel', hf', hrun⟩ := ih n (by omega)
    exact ⟨fuel', hf', (run_succ hstep.step n).trans hrun⟩

/-- A run either reaches an instruction down the code with fuel for it, or is cut short before. -/
theorem run_reaches (h : u.Advances fc s s') (hlt : s'.pc < u.instrs.size) : ∀ fuel,
    ((u.run fc fuel s).1 = .error .exhausted ∧ fuel + s.pc < u.instrs.size) ∨
      ∃ n, u.run fc fuel s = u.run fc (n + 1) s' := by
  induction h using Relation.ReflTransGen.head_induction_on with
  | refl =>
    intro fuel
    cases fuel with
    | zero => exact .inl ⟨rfl, by omega⟩
    | succ n => exact .inr ⟨n, rfl⟩
  | head hstep _ ih =>
    have hlater := hstep.later
    intro fuel
    cases fuel with
    | zero => exact .inl ⟨rfl, by have := hstep.pc_lt; omega⟩
    | succ n =>
      rw [run_succ hstep.step]
      rcases ih n with ⟨he, hshort⟩ | hrun
      · exact .inl ⟨he, by omega⟩
      · exact .inr hrun

/-- Somewhere down the code, the instruction at `pc` ends in a stop. -/
structure Stops (u : CodeUnit) (fc : FrameContext) (s : MachineState) (pc : Nat) (stop : Stop) (f : Frame) (w : World) :
    Prop where
  exec : ∃ i f₁ w₁, u.Advances fc s ⟨pc, f₁, w₁⟩ ∧ u.instrs[pc]? = some i ∧
    MachineM.exec i fc (f₁, w₁) = (.error stop, f, w)

variable {pc : Nat} {stop : Stop} {f : Frame} {w : World}

theorem Stops.of_advances (h : u.Advances fc s s') (hs : u.Stops fc s' pc stop f w) : u.Stops fc s pc stop f w := by
  obtain ⟨i, f₁, w₁, hadv, hi, he⟩ := hs.exec
  exact ⟨i, f₁, w₁, h.trans hadv, hi, he⟩

theorem Stops.pc_le (h : u.Stops fc s pc stop f w) : s.pc ≤ pc := by
  obtain ⟨i, f₁, w₁, hadv, -⟩ := h.exec
  exact hadv.pc_le

theorem Stops.lt_size (h : u.Stops fc s pc stop f w) : pc < u.instrs.size := by
  obtain ⟨i, f₁, w₁, -, hi, -⟩ := h.exec
  exact (Array.getElem?_eq_some_iff.1 hi).1

/-- An exception that a handler further down accepts first. -/
theorem Stops.caught {v : Value} {e : Handler} (h : u.Stops fc s pc (.thrown v) f w)
    (hfind : (u.handlers.find? fun e => e.accepts pc v) = some e) (hlater : pc < e.target) :
    u.Advances fc s ⟨e.target, f.unwound e v, w⟩ := by
  obtain ⟨i, f₁, w₁, hadv, hi, he⟩ := h.exec
  refine hadv.trans (Advance.advances ⟨?_, hlater⟩)
  unfold CodeUnit.step
  simp only [hi, he, hfind]

/-- A stop that nothing handles ends the run, unless that is cut short before. -/
theorem Stops.run_or (h : u.Stops fc s pc stop f w)
    (hnone : ∀ v, stop = .thrown v → (u.handlers.find? fun e => e.accepts pc v) = none) (fuel : Nat) :
    ((u.run fc fuel s).1 = .error .exhausted ∧ fuel + s.pc < u.instrs.size) ∨ u.run fc fuel s = (.error stop, w) := by
  obtain ⟨i, f₁, w₁, hadv, hi, he⟩ := h.exec
  refine (run_reaches hadv h.lt_size fuel).imp_right fun ⟨n, hrun⟩ => ?_
  rw [hrun, CodeUnit.run]
  unfold CodeUnit.step
  cases stop with
  | thrown v => simp only [hi, he, hnone v rfl]
  | defect d | exhausted => simp only [hi, he]

/-- With fuel for the rest of the code, a stop that nothing handles ends the run. -/
theorem Stops.run {fuel : Nat} (h : u.Stops fc s pc stop f w) (hfuel : u.instrs.size ≤ fuel + s.pc)
    (hnone : ∀ v, stop = .thrown v → (u.handlers.find? fun e => e.accepts pc v) = none) :
    u.run fc fuel s = (.error stop, w) :=
  (h.run_or hnone fuel).resolve_left fun hshort => by omega

/-! ## Straight code -/

/-- Instructions one after the other, none of which branches or returns. -/
structure Straight (u : CodeUnit) (pc : Nat) (is : List Instr) : Prop where
  code : ∀ (k : Nat) i, is[k]? = some i → u.instrs[pc + k]? = some i
  target : ∀ i ∈ is, i.target? = none
  noRet : ∀ i ∈ is, i ≠ .ret

theorem Straight.tail {i : Instr} {is : List Instr} (h : u.Straight pc (i :: is)) : u.Straight (pc + 1) is where
  code k j hk := by
    rw [Nat.add_assoc, Nat.add_comm 1 k]
    exact h.code (k + 1) j hk
  target j hj := h.target j (List.mem_cons_of_mem i hj)
  noRet j hj := h.noRet j (List.mem_cons_of_mem i hj)

/-- The effects of straight code one after the other. -/
def effects (is : List Instr) : MachineM Unit :=
  is.forM MachineM.effect

theorem effects_cons (i : Instr) (is : List Instr) :
    effects (i :: is) = MachineM.effect i >>= fun _ => effects is := rfl

theorem effects_one (i : Instr) : effects [i] = MachineM.effect i := bind_pure_unit

theorem effects_append (is js : List Instr) : effects (is ++ js) = effects is >>= fun _ => effects js :=
  List.forM_append

/-- Straight code runs as its effects do. -/
theorem Straight.run (fc : FrameContext) : ∀ (is : List Instr) {pc : Nat}, u.Straight pc is → ∀ f w,
    match effects is fc (f, w) with
    | (.ok _, f', w') => u.Advances fc ⟨pc, f, w⟩ ⟨pc + is.length, f', w'⟩
    | (.error stop, f', w') => ∃ k < is.length, u.Stops fc ⟨pc, f, w⟩ (pc + k) stop f' w'
  | [], pc, _, f, w => Advances.refl
  | i :: is, pc, h, f, w => by
    have hi : u.instrs[pc]? = some i := h.code 0 i rfl
    have hexec := MachineM.exec_plain (h.target i List.mem_cons_self) (h.noRet i List.mem_cons_self)
    rw [effects_cons, Act.bind_apply]
    rcases he : MachineM.effect i fc (f, w) with ⟨stop | ⟨⟩, f₁, w₁⟩
    · refine ⟨0, by simp, ⟨i, f, w, Advances.refl, hi, ?_⟩⟩
      rw [hexec, Act.bind_error he]
    · have hstep : u.Advances fc ⟨pc, f, w⟩ ⟨pc + 1, f₁, w₁⟩ := by
        refine Advance.advances ⟨?_, by simp⟩
        unfold CodeUnit.step
        simp only [hi, hexec, Act.bind_ok he, Act.pure_apply]
      have ih := Straight.run fc is h.tail f₁ w₁
      simp only
      rcases hrest : effects is fc (f₁, w₁) with ⟨stop | ⟨⟩, f₂, w₂⟩ <;> rw [hrest] at ih
      · obtain ⟨k, hk, hstops⟩ := ih
        refine ⟨k + 1, by simpa using hk, ?_⟩
        rw [show pc + (k + 1) = pc + 1 + k by omega]
        exact hstops.of_advances hstep
      · have hadv := hstep.trans ih
        rw [show pc + 1 + is.length = pc + (i :: is).length by simp; omega] at hadv
        exact hadv

end CodeUnit

/-! ## Code and units -/

namespace Builder

/-- A unit holds the code written so far: its instructions, with the branches to labels that are bound
already, its handlers and its locals, of which a unit has no more than it can number. -/
structure Links (b : Builder) (u : CodeUnit) : Prop where
  plain : ∀ pc i, b.Written pc (.plain i) → u.instrs[pc]? = some i
  branch : ∀ pc kind l s p, b.Written pc (.branch kind l) → b.labels[l]? = some s → s.pc = some p →
    u.instrs[pc]? = some (.branch kind p)
  jump : ∀ pc kind l, b.Written pc (.branch kind l) → ∃ p, u.instrs[pc]? = some (.branch kind p)
  handlers : b.handlers.toList <+: u.handlers
  locals : b.locals.toList <+: u.locals.toList
  few : u.locals.size ≤ Nat.pow 2 16

variable {b b' : Builder} {D D' : Nat → Option Nat} {u : CodeUnit}

theorem getElem?_of_starts {α : Type} {xs ys : Array α} (h : xs.toList <+: ys.toList) {i : Nat} {a : α}
    (hi : xs[i]? = some a) : ys[i]? = some a := by
  obtain ⟨t, ht⟩ := h
  have hlt := (Array.getElem?_eq_some_iff.1 hi).1
  rw [← Array.getElem?_toList, ← ht, List.getElem?_append_left (by simpa using hlt), Array.getElem?_toList]
  exact hi

/-- What holds of the code holds of what was written before, unless labels that are open there are
bound already. -/
theorem Links.mono {ls : List Nat} (h : b'.Links u) (hg : Grows ls b D b' D')
    (hopen : ∀ l ∈ ls, ∀ s, b.labels[l]? = some s → s.pc = none) : b.Links u where
  plain pc i hi := h.plain pc i (hg.written pc _ hi)
  branch pc kind l s p hi hl hp := by
    refine h.branch pc kind l s p (hg.written pc _ hi) (hg.kept l s (fun hmem => ?_) hl) hp
    rw [hopen l hmem s hl] at hp
    cases hp
  jump pc kind l hi := h.jump pc kind l (hg.written pc _ hi)
  handlers := hg.handlers.trans h.handlers
  locals := hg.locals.trans h.locals
  few := h.few

theorem Links.of_finish (h : b.finish = .ok u) (hfew : b.locals.size ≤ Nat.pow 2 16) : b.Links u := by
  have hf := finished h
  refine ⟨fun pc i hi => hf.plain hi, fun pc kind l s p hi hl hp => ?_, fun pc kind l hi => ?_,
    by rw [hf.handlers], by rw [hf.locals], by rw [hf.locals]; exact hfew⟩
  · obtain ⟨t, ht, hcode⟩ := hf.branch hi
    rw [target?, hl] at ht
    obtain rfl := Option.some.inj (hp.symm.trans ht)
    exact hcode
  · obtain ⟨t, -, hcode⟩ := hf.branch hi
    exact ⟨t, hcode⟩

end Builder

end ExprCompiler
