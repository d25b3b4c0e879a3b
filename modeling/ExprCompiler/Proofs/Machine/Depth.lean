/-
The depths of a unit are those of every run. Wherever a run has come, its instruction is inside the
unit and has a depth, and the stack holds as many values. So no instruction runs out of values, and a
unit returns from a stack of one value. An exception takes the stack down to the depth that the
region's entry recorded; that is sound as long as no instruction inside the region takes values from
below it.
-/
import ExprCompiler.Proofs.Code.Depth
import ExprCompiler.Proofs.Machine.Stack
import Mathlib.Logic.Relation

namespace ExprCompiler

/-- No instruction inside a protected region takes values from below the depth of the region. -/
def CodeUnit.RegionsHold (u : CodeUnit) (ds : Depths) : Prop :=
  ∀ e ∈ u.handlers, ∀ pc i d, e.Covers pc → u.instrs[pc]? = some i → ds.Holds (pc, d) → e.stackDepth ≤ d - i.pops

/-- One state of a run follows another. -/
def CodeUnit.Steps (u : CodeUnit) (ctx : FrameContext) (s t : MachineState) : Prop :=
  u.step ctx s = .running t

/-- A run comes from one state to another. -/
abbrev CodeUnit.Reaches (u : CodeUnit) (ctx : FrameContext) : MachineState → MachineState → Prop :=
  Relation.ReflTransGen (u.Steps ctx)

/-- The stack of a state has the depth of the state's instruction. -/
def MachineState.Fits (s : MachineState) (ds : Depths) : Prop :=
  ds.Holds (s.pc, s.frame.stack.length)

namespace Frame

theorem length_bottom {α : Type} {xs : List α} {n : Nat} (h : n ≤ xs.length) : (bottom xs n).length = n := by
  simp only [bottom, List.length_drop]
  omega

theorem length_unwound {f : Frame} {e : Handler} (exn : Value) (h : e.stackDepth ≤ f.stack.length) :
    (f.unwound e exn).stack.length = e.entryDepth := by
  unfold unwound Handler.entryDepth
  cases e.kind <;> simp [length_bottom h]

end Frame

namespace CodeUnit

variable {u : CodeUnit} {ds : Depths} {ctx : FrameContext} {s t : MachineState}

/-- What a step that does not end the run does. -/
theorem step_running (h : u.step ctx s = .running t) :
    ∃ i, u.instrs[s.pc]? = some i ∧
      ((∃ flow, MachineM.exec i ctx (s.frame, s.world) = (.ok flow, t.frame, t.world) ∧
          (flow = .next ∧ t.pc = s.pc + 1 ∨ flow = .jump t.pc)) ∨
        ∃ exn frame e, MachineM.exec i ctx (s.frame, s.world) = (.error (.thrown exn), frame, t.world) ∧
          e ∈ u.handlers ∧ e.Covers s.pc ∧ t.pc = e.target ∧ t.frame = frame.unwound e exn) := by
  unfold step at h
  split at h
  · cases h
  · rename_i i hi
    refine ⟨i, hi, ?_⟩
    split at h
    · rename_i he
      cases h
      exact .inl ⟨_, he, .inl ⟨rfl, rfl⟩⟩
    · rename_i he
      cases h
      exact .inl ⟨_, he, .inr rfl⟩
    · cases h
    · rename_i he
      split at h
      · rename_i e hf
        cases h
        have hacc := List.find?_some hf
        simp only [Handler.accepts, Bool.and_eq_true, decide_eq_true_eq] at hacc
        exact .inr ⟨_, _, e, he, List.mem_of_find?_eq_some hf, hacc.1, rfl, rfl⟩
      · cases h
    · cases h

/-- A step keeps to the depths. -/
theorem fits_step (hc : Depths.Closed u.instrs ds) (hentry : ∀ e ∈ u.handlers, ds.Holds (e.target, e.entryDepth))
    (hr : u.RegionsHold ds) (hs : s.Fits ds) (h : u.Steps ctx s t) : t.Fits ds := by
  obtain ⟨i, hi, hcases⟩ := step_running h
  obtain ⟨j, hj, hnext⟩ := hc _ hs
  obtain rfl : j = i := by simpa [hj.at_pc] using hi
  have hx := MachineM.executed_exec ctx j (s.frame, s.world) hj.operands
  rcases hcases with ⟨flow, he, hflow⟩ | ⟨exn, frame, e, he, hmem, hcov, hpc, hframe⟩ <;> rw [he] at hx
  · obtain ⟨hfollows, vs, hvs, hstack⟩ := hx
    have hlen : t.frame.stack.length = s.frame.stack.length - j.pops + j.pushes := by
      rw [hstack, List.length_append, List.length_drop, hvs, Nat.add_comm]
    have hsucc : (t.pc, t.frame.stack.length) ∈ Depths.next j (s.pc, s.frame.stack.length) := by
      unfold Depths.next Depths.successors
      rw [hlen]
      rcases hflow with ⟨rfl, hpc⟩ | rfl
      · simp only [Flow.Follows] at hfollows
        simp [hfollows, hpc]
      · simp only [Flow.Follows] at hfollows
        simp [hfollows]
    exact hnext _ hsucc
  · obtain ⟨⟨k, hk, hstack⟩, -⟩ := hx
    have hdepth := hr e hmem s.pc j _ hcov hi hs
    have hlow : e.stackDepth ≤ frame.stack.length := by
      rw [hstack, List.length_drop]
      simp only at hdepth ⊢
      omega
    unfold MachineState.Fits
    rw [hpc, hframe, Frame.length_unwound exn hlow]
    exact hentry e hmem

/-- Every state of a run keeps to the depths. -/
theorem fits_reaches (hd : u.depths = .ok ds) (hr : u.RegionsHold ds) (hs : s.Fits ds)
    (h : u.Reaches ctx s t) : t.Fits ds := by
  obtain ⟨hc, -, hentry⟩ := depths_closed hd
  induction h with
  | refl => exact hs
  | tail _ hstep ih => exact fits_step hc hentry hr ih hstep

/-- A step ends by running out of values only where its instruction does. -/
theorem step_stackUnderflow {w : World} (h : u.step ctx s = .finished (.error (.defect .stackUnderflow)) w) :
    ∃ i f, u.instrs[s.pc]? = some i ∧
      MachineM.exec i ctx (s.frame, s.world) = (.error (.defect .stackUnderflow), f, w) := by
  unfold step at h
  split at h
  · cases h
  · rename_i i hi
    refine ⟨i, ?_⟩
    split at h
    · cases h
    · cases h
    · cases h
    · split at h <;> cases h
    · rename_i he
      cases h
      exact ⟨_, hi, he⟩

/-- The instruction of a state that keeps to the depths finds its operands. -/
theorem exec_ne_stackUnderflow (hc : Depths.Closed u.instrs ds) (hsafe : ctx.CallsSafely)
    (hs : s.Fits ds) {i : Instr} (hi : u.instrs[s.pc]? = some i) (f : Frame) (w : World) :
    MachineM.exec i ctx (s.frame, s.world) ≠ (.error (.defect .stackUnderflow), f, w) := by
  intro he
  obtain ⟨j, hj, -⟩ := hc _ hs
  obtain rfl : j = i := by simpa [hj.at_pc] using hi
  have hx := MachineM.executed_exec ctx j (s.frame, s.world) hj.operands
  rw [he] at hx
  exact hx.2 hsafe rfl

/-- A run that keeps to the depths never ends by running out of values. -/
theorem run_ne_stackUnderflow (hd : u.depths = .ok ds) (hr : u.RegionsHold ds) (hsafe : ctx.CallsSafely) :
    ∀ (fuel : Nat) (s : MachineState), s.Fits ds → (u.run ctx fuel s).1 ≠ .error (.defect .stackUnderflow)
  | 0, s, _ => by simp [run]
  | fuel + 1, s, hs => by
    obtain ⟨hc, -, hentry⟩ := depths_closed hd
    unfold run
    rcases hstep : u.step ctx s with t | ⟨result, w⟩
    · exact run_ne_stackUnderflow hd hr hsafe fuel t (fits_step hc hentry hr hs hstep)
    · rintro rfl
      obtain ⟨i, f, hi, he⟩ := step_stackUnderflow hstep
      exact exec_ne_stackUnderflow hc hsafe hs hi f w he

/-- A unit with depths whose protected regions hold keeps to the depths in every run, whatever its
arguments, its closure and the functions that it calls. Before each step the instruction is inside
the unit and the stack has exactly its depth, so that the operands are there and a return leaves one
value; and the run never ends by running out of values unless a function called from it does. -/
theorem depths_sound (hd : u.depths = .ok ds) (hr : u.RegionsHold ds) (ctx : FrameContext) (args : List Value)
    (w : World) :
    (∀ s, u.Reaches ctx ⟨0, u.frame ctx.closure args, w⟩ s →
      ∃ i d, u.instrs[s.pc]? = some i ∧ ds[s.pc]? = some (some d) ∧ s.frame.stack.length = d ∧
        i.pops ≤ s.frame.stack.length ∧ (i = .ret → s.frame.stack.length = 1) ∧
        (ctx.CallsSafely → ∀ f w', MachineM.exec i ctx (s.frame, s.world) ≠
          (.error (.defect .stackUnderflow), f, w'))) ∧
      (ctx.CallsSafely → ∀ fuel, (u.interpret ctx fuel args w).1 ≠ .error (.defect .stackUnderflow)) := by
  obtain ⟨hc, hstart, -⟩ := depths_closed hd
  have hfits : MachineState.Fits ⟨0, u.frame ctx.closure args, w⟩ ds := hstart
  refine ⟨fun s hs => ?_, fun hsafe fuel => run_ne_stackUnderflow hd hr hsafe fuel _ hfits⟩
  have hs := fits_reaches hd hr hfits hs
  obtain ⟨i, hi, -⟩ := hc _ hs
  exact ⟨i, _, hi.at_pc, hs, rfl, hi.operands, hi.returns,
    fun hsafe f w' => exec_ne_stackUnderflow hc hsafe hs hi.at_pc f w'⟩

/-- Throws the second of two numbers and adds the exception to the first. -/
def catchingSum : CodeUnit where
  name := "sum"
  params := []
  ret := .int .i32
  layout := none
  locals := #[]
  instrs := #[.const (.i32 5), .const (.i32 7), .throw, .arith .add .wrap, .ret]
  handlers := [⟨1, 3, .catches .object, 3, 1, 0⟩]
  maxStack := 2
  native := none

theorem depths_sound_catchingSum :
    catchingSum.depths = .ok #[some 0, some 1, some 2, some 2, some 1] ∧
      catchingSum.RegionsHold #[some 0, some 1, some 2, some 2, some 1] ∧
      ∀ (ctx : FrameContext) (s : MachineState),
        catchingSum.Reaches ctx ⟨0, catchingSum.frame ctx.closure [], {}⟩ s →
        ∃ i d, catchingSum.instrs[s.pc]? = some i ∧
          (#[some 0, some 1, some 2, some 2, some 1] : Depths)[s.pc]? = some (some d) ∧
          s.frame.stack.length = d ∧ i.pops ≤ s.frame.stack.length := by
  have hd : catchingSum.depths = .ok #[some 0, some 1, some 2, some 2, some 1] := by rfl
  have hr : catchingSum.RegionsHold #[some 0, some 1, some 2, some 2, some 1] := by
    rintro e he pc i d ⟨hlo, hhi⟩ hi hdepth
    obtain rfl : e = ⟨1, 3, .catches .object, 3, 1, 0⟩ := by simpa [catchingSum] using he
    obtain rfl | rfl : pc = 1 ∨ pc = 2 := by simp only at hlo hhi; omega
    · obtain rfl : Instr.const (.i32 7) = i := by simpa [catchingSum] using hi
      obtain rfl : 1 = d := by simpa [Depths.Holds] using hdepth
      decide
    · obtain rfl : Instr.throw = i := by simpa [catchingSum] using hi
      obtain rfl : 2 = d := by simpa [Depths.Holds] using hdepth
      decide
  refine ⟨hd, hr, fun ctx s hs => ?_⟩
  obtain ⟨i, d, hi, hdepth, hlen, hpops, -⟩ := (depths_sound hd hr ctx [] {}).1 s hs
  exact ⟨i, d, hi, hdepth, hlen, hpops⟩

end CodeUnit

end ExprCompiler
