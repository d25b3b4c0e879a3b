/-
The depths of a unit are exactly those of the paths on which control can come to its instructions. A
unit has depths if and only if the positions that control reaches can be given one depth each, a machine
word, so that every edge is respected, no instruction lacks an operand, control stays inside the unit and
returns with one value; and the depths found are then those of the paths. Points are looked at in the order of a
worklist, of which the proof uses only that every point comes from the entries along edges, and that a
turn of the loop never leaves more points and unknown instructions than the turn before.
-/
import ExprCompiler.Proofs.Code.Depth

namespace ExprCompiler

namespace Depths

/-! ## The loop -/

/-- The loop over the worklist, with no bound on its turns, comes to an end with this result. -/
inductive Ends (instrs : Array Instr) : Depths → List Point → Except DepthProblem Depths → Prop
  | done {ds : Depths} : Ends instrs ds [] (.ok ds)
  | fails {ds : Depths} {p : Point} {work : List Point} {e : DepthProblem} (now : visit instrs ds p = .error e) :
    Ends instrs ds (p :: work) (.error e)
  | turn {ds ds' : Depths} {p : Point} {work more : List Point} {r : Except DepthProblem Depths}
    (now : visit instrs ds p = .ok (ds', more)) (rest : Ends instrs ds' (more ++ work) r) :
    Ends instrs ds (p :: work) r

variable {instrs : Array Instr}

/-- A turn of the loop uses up what it adds to the work. -/
theorem visit_shrinks {ds ds' : Depths} {p : Point} {more : List Point}
    (hs : ds.size = instrs.size) (h : visit instrs ds p = .ok (ds', more)) :
    ds'.size = instrs.size ∧ more.length + 2 * ds'.unknown ≤ 2 * ds.unknown := by
  rcases visit_ok h with ⟨-, rfl, rfl⟩ | ⟨i, ha, hnew, rfl, rfl⟩
  · exact ⟨hs, by simp⟩
  · have hunknown := unknown_setIfInBounds (d := p.2) (hs ▸ ha.lt) hnew
    have hnext := length_next i p
    exact ⟨by simpa using hs, by omega⟩

/-- With enough fuel exploring does what the loop does, which comes to an end. -/
theorem explore_ends :
    ∀ (fuel : Nat) (ds : Depths) (work : List Point), ds.size = instrs.size → work.length + 2 * ds.unknown ≤ fuel →
      Ends instrs ds work (explore instrs fuel ds work)
  | 0, ds, [], _, _ => .done
  | _ + 1, ds, [], _, _ => .done
  | 0, ds, p :: work, _, hf => by
    simp at hf
  | fuel + 1, ds, p :: work, hs, hf => by
    unfold explore
    rcases hv : visit instrs ds p with e | ⟨ds', more⟩
    · exact .fails hv
    · obtain ⟨hs', hless⟩ := visit_shrinks hs hv
      refine .turn hv (explore_ends fuel ds' (more ++ work) hs' ?_)
      simp only [List.length_append, List.length_cons] at hf ⊢
      omega

/-! ## What is looked at -/

section

variable {instrs : Array Instr} {P : Point → Prop}

/-- A property of points that passes from each point that admits its instruction to those that follow it. -/
def Inherited (instrs : Array Instr) (P : Point → Prop) : Prop :=
  ∀ p i, P p → Admits instrs p i → ∀ q ∈ next i p, P q

theorem visit_inherited (hP : Inherited instrs P) {ds ds' : Depths} {p : Point} {more : List Point}
    (hds : ∀ q, ds.Holds q → P q) (hp : P p) (h : visit instrs ds p = .ok (ds', more)) :
    (∀ q, ds'.Holds q → P q) ∧ ∀ q ∈ more, P q := by
  rcases visit_ok h with ⟨-, rfl, rfl⟩ | ⟨i, ha, -, rfl, rfl⟩
  · exact ⟨hds, by simp⟩
  · refine ⟨fun q hq => ?_, hP p i hp ha⟩
    by_cases hlt : p.1 < ds.size
    · rcases (holds_setIfInBounds hlt).1 hq with rfl | ⟨-, hq⟩
      · exact hp
      · exact hds q hq
    · rw [Array.setIfInBounds, dif_neg hlt] at hq
      exact hds q hq

/-- All that exploring finds, and what it fails on, has the properties that are inherited from the points
at the start. -/
theorem explore_inherited (hP : Inherited instrs P) :
    ∀ (fuel : Nat) (ds : Depths) (work : List Point), (∀ q, ds.Holds q → P q) → (∀ q ∈ work, P q) →
      match explore instrs fuel ds work with
      | .ok ds' => ∀ q, ds'.Holds q → P q
      | .error e => ∃ ds' p, (∀ q, ds'.Holds q → P q) ∧ P p ∧ visit instrs ds' p = .error e
  | 0, ds, [], hds, _ => hds
  | 0, ds, _ :: _, hds, _ => hds
  | _ + 1, ds, [], hds, _ => hds
  | fuel + 1, ds, p :: work, hds, hwork => by
    have hp := hwork p List.mem_cons_self
    unfold explore
    rcases hv : visit instrs ds p with e | ⟨ds', more⟩
    · exact ⟨ds, p, hds, hp, hv⟩
    · obtain ⟨hds', hmore⟩ := visit_inherited hP hds hp hv
      refine explore_inherited hP fuel ds' (more ++ work) hds' fun q hq => ?_
      rcases List.mem_append.1 hq with hq | hq
      · exact hmore q hq
      · exact hwork q (List.mem_cons_of_mem p hq)

end

/-- The problems that a visit can meet. -/
theorem visit_error {ds : Depths} {pc d : Nat} {e : DepthProblem} (h : visit instrs ds (pc, d) = .error e) :
    (instrs[pc]? = none ∧ e = .pastEnd pc) ∨ ∃ i, instrs[pc]? = some i ∧
      ((∃ seen, ds.Holds (pc, seen) ∧ seen ≠ d ∧ e = .disagreement pc i d seen) ∨
        (d < i.pops ∧ e = .underflow pc i) ∨ (limit instrs ≤ d - i.pops + i.pushes ∧ e = .overflow) ∨
        (i = .ret ∧ d ≠ 1 ∧ e = .badReturn pc d)) := by
  unfold visit at h
  simp only at h
  split at h
  · rename_i hi
    cases h
    exact .inl ⟨hi, rfl⟩
  rename_i i hi
  refine .inr ⟨i, hi, ?_⟩
  split at h
  · rename_i seen hs
    split at h
    · cases h
    · rename_i hne
      cases h
      exact .inl ⟨seen, join_eq_some.1 hs, hne, rfl⟩
  · split at h
    · rename_i hpops
      cases h
      exact .inr (.inl ⟨hpops, rfl⟩)
    split at h
    · rename_i hlimit
      cases h
      exact .inr (.inr (.inl ⟨hlimit, rfl⟩))
    split at h
    · by_cases hd : d = 1
      · simp [hd] at h
      · simp only [hd, ne_eq, not_false_eq_true, and_true, if_true] at h
        cases h
        exact .inr (.inr (.inr ⟨rfl, hd, rfl⟩))
    · simp at h

theorem size_explore :
    ∀ (fuel : Nat) (ds ds' : Depths) (work : List Point), explore instrs fuel ds work = .ok ds' → ds'.size = ds.size
  | 0, ds, ds', [], h => by cases h; rfl
  | 0, ds, ds', _ :: _, h => by cases h; rfl
  | _ + 1, ds, ds', [], h => by cases h; rfl
  | fuel + 1, ds, ds', p :: work, h => by
    unfold explore at h
    split at h
    · cases h
    · rename_i ds₁ more hv
      rw [size_explore fuel ds₁ ds' (more ++ work) h]
      rcases visit_ok hv with ⟨-, rfl, -⟩ | ⟨i, -, -, rfl, -⟩
      · rfl
      · simp

end Depths

namespace CodeUnit

/-! ## Paths -/

section

variable (u : CodeUnit)

/-- Control can pass from the instruction `i` at `pc` to a position: to the next one, unless flow ends at
the instruction, or to the target of a branch. -/
def Edge (i : Instr) (pc pc' : Nat) : Prop :=
  i.endsFlow = false ∧ pc' = pc + 1 ∨ i.target? = some pc'

/-- The positions that control can come to: the start, the handlers' targets, and what edges lead to. -/
inductive Reachable : Nat → Prop
  | start : Reachable 0
  | handler {e : Handler} (entry : e ∈ u.handlers) : Reachable e.target
  | edge {pc pc' : Nat} {i : Instr} (here : Reachable pc) (code : u.instrs[pc]? = some i) (goes : Edge i pc pc') :
    Reachable pc'

/-- A path comes to a position with a depth: the start has depth 0, a handler its own, and each
instruction on the path pops and pushes its values. -/
inductive Arrives : Nat → Nat → Prop
  | start : Arrives 0 0
  | handler {e : Handler} (entry : e ∈ u.handlers) : Arrives e.target e.entryDepth
  | edge {pc pc' d : Nat} {i : Instr} (here : Arrives pc d) (code : u.instrs[pc]? = some i) (goes : Edge i pc pc') :
    Arrives pc' (d - i.pops + i.pushes)

/-- One depth for each position that control can come to. -/
structure Assigns (D : Nat → Nat) : Prop where
  fits : ∀ pc, u.Reachable pc → D pc < Depths.limit u.instrs
  start : D 0 = 0
  handlers : ∀ e ∈ u.handlers, D e.target = e.entryDepth
  inside : ∀ pc, u.Reachable pc → pc < u.instrs.size
  edges : ∀ pc i pc', u.Reachable pc → u.instrs[pc]? = some i → Edge i pc pc' → D pc' = D pc - i.pops + i.pushes
  operands : ∀ pc i, u.Reachable pc → u.instrs[pc]? = some i → i.pops ≤ D pc
  returns : ∀ pc, u.Reachable pc → u.instrs[pc]? = some .ret → D pc = 1

end

variable {u : CodeUnit} {ds : Depths} {pc : Nat}

theorem mem_next {i : Instr} {d : Nat} {q : Depths.Point} :
    q ∈ Depths.next i (pc, d) ↔ Edge i pc q.1 ∧ q.2 = d - i.pops + i.pushes := by
  obtain ⟨pc', d'⟩ := q
  unfold Depths.next Depths.successors Edge
  cases hf : i.endsFlow <;> cases ht : i.target? <;> simp <;> grind

theorem Reachable.arrives (h : u.Reachable pc) : ∃ d, u.Arrives pc d := by
  induction h with
  | start => exact ⟨_, .start⟩
  | handler entry => exact ⟨_, .handler entry⟩
  | edge _ code goes ih =>
    obtain ⟨d, hd⟩ := ih
    exact ⟨_, .edge hd code goes⟩

/-- An entry of the unit is the start or a handler's. -/
theorem mem_entryPoints {p : Depths.Point} :
    p ∈ u.entryPoints ↔ p = (0, 0) ∨ ∃ e ∈ u.handlers, p = (e.target, e.entryDepth) := by
  simp only [entryPoints, List.mem_append, List.mem_map, List.mem_reverse, List.mem_singleton]
  grind

/-- Paths whose depths fit words go on as long as instructions are admitted. -/
theorem inherited_arrives (u : CodeUnit) :
    Depths.Inherited u.instrs fun p => u.Arrives p.1 p.2 ∧ p.2 < Depths.limit u.instrs := by
  rintro ⟨pc, d⟩ i ⟨hp, -⟩ hi q hq
  obtain ⟨hedge, hdepth⟩ := mem_next.1 hq
  simp only [hdepth]
  exact ⟨.edge hp hi.at_pc hedge, hi.fits⟩

theorem arrives_entryPoints (hfit : ∀ e ∈ u.handlers, e.entryDepth < Depths.limit u.instrs) {p : Depths.Point}
    (hp : p ∈ u.entryPoints) : u.Arrives p.1 p.2 ∧ p.2 < Depths.limit u.instrs := by
  rcases mem_entryPoints.1 hp with rfl | ⟨e, he, rfl⟩
  · exact ⟨.start, Nat.lt_of_lt_of_le (Nat.succ_pos _) (Nat.le_max_right ..)⟩
  · exact ⟨.handler he, hfit e he⟩

/-- A depth that was found is the depth of a path. -/
theorem arrives_of_holds (h : u.depths = .ok ds) {d : Nat} (hd : ds.Holds (pc, d)) :
    u.Arrives pc d ∧ d < Depths.limit u.instrs := by
  have hfit := entryDepth_lt_limit h
  rw [depths_eq_explore hfit] at h
  have hall := Depths.explore_inherited (inherited_arrives u) (2 * u.instrs.size + u.handlers.length + 1)
    (Array.replicate u.instrs.size none) u.entryPoints (fun q hq => absurd hq Depths.not_holds_replicate)
    fun q hq => arrives_entryPoints hfit hq
  rw [h] at hall
  exact hall (pc, d) hd

/-- Where a unit has no depths, the depth of a handler fits no word, or exploring has met a problem at the end
of a path; and what it knew then were depths of paths. -/
theorem arrives_of_depths_error {e : DepthProblem} (h : u.depths = .error e) :
    (e = .overflow ∧ ∃ x ∈ u.handlers, Depths.limit u.instrs ≤ x.entryDepth) ∨
    ∃ (known : Depths) (pc d : Nat), (∀ pc d, known.Holds (pc, d) → u.Arrives pc d) ∧ u.Arrives pc d ∧
      d < Depths.limit u.instrs ∧ Depths.visit u.instrs known (pc, d) = .error e := by
  by_cases hfit : ∀ e ∈ u.handlers, e.entryDepth < Depths.limit u.instrs
  · rw [depths_eq_explore hfit] at h
    have hall := Depths.explore_inherited (inherited_arrives u) (2 * u.instrs.size + u.handlers.length + 1)
      (Array.replicate u.instrs.size none) u.entryPoints (fun q hq => absurd hq Depths.not_holds_replicate)
      fun q hq => arrives_entryPoints hfit hq
    rw [h] at hall
    obtain ⟨known, p, hknown, ⟨hp, hlt⟩, hv⟩ := hall
    exact .inr ⟨known, p.1, p.2, fun pc d hd => (hknown (pc, d) hd).1, hp, hlt, hv⟩
  · push Not at hfit
    rw [depths, if_pos (by simpa using hfit)] at h
    cases h
    exact .inl ⟨rfl, hfit⟩

/-- Only where a path has lifted the stack beyond what a word can count does exploring overflow. -/
theorem arrives_of_overflow (h : u.depths = .error .overflow) : ∃ pc d, u.Arrives pc d ∧ Depths.limit u.instrs ≤ d := by
  rcases arrives_of_depths_error h with ⟨-, e, he, hd⟩ | ⟨known, pc, d, -, hpc, hlt, hv⟩
  · exact ⟨_, _, .handler he, hd⟩
  · rcases Depths.visit_error hv with ⟨-, hv⟩ | ⟨i, hi, ⟨_, -, -, hv⟩ | ⟨-, hv⟩ | ⟨hd, -⟩ | ⟨-, -, hv⟩⟩
    · cases hv
    · cases hv
    · cases hv
    · rcases hends : i.endsFlow with _ | _
      · exact ⟨_, _, .edge hpc hi (.inl ⟨hends, rfl⟩), hd⟩
      · -- where flow ends nothing is pushed
        have := i.pushes_of_endsFlow hends
        omega
    · cases hv

/-- The depth of a path is found. -/
theorem holds_of_arrives (h : u.depths = .ok ds) {d : Nat} (hd : u.Arrives pc d) : ds.Holds (pc, d) := by
  obtain ⟨hclosed, hstart, hentry⟩ := depths_closed h
  induction hd with
  | start => exact hstart
  | handler entry => exact hentry _ entry
  | @edge pc pc' d i _ code goes ih =>
    obtain ⟨j, hj, hnext⟩ := hclosed _ ih
    obtain rfl : j = i := Option.some.inj (hj.at_pc.symm.trans code)
    exact hnext (pc', _) (mem_next.2 ⟨goes, rfl⟩)

/-- A depth at an instruction is that of the paths that arrive there. -/
theorem getElem?_depths_eq_some (h : u.depths = .ok ds) {d : Nat} : ds[pc]? = some (some d) ↔ u.Arrives pc d :=
  ⟨fun hd => (arrives_of_holds h hd).1, holds_of_arrives h⟩

theorem size_depths (h : u.depths = .ok ds) : ds.size = u.instrs.size := by
  rw [depths_eq_explore (entryDepth_lt_limit h)] at h
  rw [Depths.size_explore _ _ _ _ h, Array.size_replicate]

/-- An instruction has no depth if no path arrives there. -/
theorem getElem?_depths_eq_none (h : u.depths = .ok ds) (hpc : pc < u.instrs.size) :
    ds[pc]? = some none ↔ ∀ d, ¬ u.Arrives pc d := by
  obtain ⟨o, ho⟩ : ∃ o, ds[pc]? = some o := ⟨_, Array.getElem?_eq_getElem (size_depths h ▸ hpc)⟩
  simp only [← getElem?_depths_eq_some h, ho]
  cases o <;> simp

/-! ## Depths and assignments -/

/-- The depths that were found, as an assignment. -/
theorem assigns_of_depths (h : u.depths = .ok ds) : u.Assigns fun pc => ds[pc]?.join.getD 0 := by
  obtain ⟨hclosed, hstart, hentry⟩ := depths_closed h
  have hvalue : ∀ {pc d : Nat}, ds.Holds (pc, d) → ds[pc]?.join.getD 0 = d := by
    intro pc d hd
    rw [Depths.join_eq_some.2 hd]
    rfl
  -- a position that control reaches has a depth, and admits its instruction there
  have hat : ∀ pc, u.Reachable pc → ∃ d i, ds.Holds (pc, d) ∧ Depths.Admits u.instrs (pc, d) i ∧
      ∀ q ∈ Depths.next i (pc, d), ds.Holds q := by
    intro pc hpc
    obtain ⟨d, hd⟩ := hpc.arrives
    have hholds := holds_of_arrives h hd
    obtain ⟨i, hi, hnext⟩ := hclosed _ hholds
    exact ⟨d, i, hholds, hi, hnext⟩
  refine ⟨fun pc hpc => ?_, hvalue hstart, fun e he => hvalue (hentry e he), fun pc hpc => ?_,
    fun pc i pc' hpc hi hedge => ?_, fun pc i hpc hi => ?_, fun pc hpc hi => ?_⟩
  · obtain ⟨d, i, hd, -⟩ := hat pc hpc
    simp only [hvalue hd]
    exact (arrives_of_holds h hd).2
  · obtain ⟨d, i, -, hi, -⟩ := hat pc hpc
    exact hi.lt
  · obtain ⟨d, j, hd, hj, hnext⟩ := hat pc hpc
    obtain rfl : j = i := Option.some.inj (hj.at_pc.symm.trans hi)
    have hd' := hnext (pc', d - j.pops + j.pushes) (mem_next.2 ⟨hedge, rfl⟩)
    simp only [hvalue hd, hvalue hd']
  · obtain ⟨d, j, hd, hj, -⟩ := hat pc hpc
    obtain rfl : j = i := Option.some.inj (hj.at_pc.symm.trans hi)
    simp only [hvalue hd]
    exact hj.operands
  · obtain ⟨d, j, hd, hj, -⟩ := hat pc hpc
    obtain rfl : j = .ret := Option.some.inj (hj.at_pc.symm.trans hi)
    simp only [hvalue hd]
    exact hj.returns rfl

/-- A unit whose positions can be given depths has depths. -/
theorem depths_of_assigns {D : Nat → Nat} (h : u.Assigns D) : ∃ ds, u.depths = .ok ds := by
  classical
  refine depths_isOk (D := fun pc => if u.Reachable pc then some (D pc) else none) ?_ ?_ ?_ fun e he => ?_
  · rintro ⟨pc, d⟩ hd
    simp only at hd
    split at hd
    · rename_i hpc
      obtain rfl := Option.some.inj hd
      obtain ⟨i, hi⟩ : ∃ i, u.instrs[pc]? = some i := ⟨_, Array.getElem?_eq_getElem (h.inside pc hpc)⟩
      refine ⟨i, ⟨hi, h.operands pc i hpc hi, ?_, ?_⟩, fun q hq => ?_⟩
      · rcases hends : i.endsFlow with _ | _
        · have hedge : Edge i pc (pc + 1) := .inl ⟨hends, rfl⟩
          rw [← h.edges pc i (pc + 1) hpc hi hedge]
          exact h.fits _ (.edge hpc hi hedge)
        · have := i.pushes_of_endsFlow hends
          have := h.fits pc hpc
          simp only
          omega
      · rintro rfl
        exact h.returns pc hpc hi
      · obtain ⟨hedge, hdepth⟩ := mem_next.1 hq
        have hq : u.Reachable q.1 := .edge hpc hi hedge
        simp only [if_pos hq, hdepth, h.edges pc i q.1 hpc hi hedge]
    · cases hd
  · rw [if_pos .start, h.start]
  · intro e he
    rw [if_pos (.handler he), h.handlers e he]
  · rw [← h.handlers e he]
    exact h.fits _ (.handler he)

/-- Exploring a unit comes to an end: its loop does, unless a handler's depth fits no word, and then it is not
begun. It finds depths if and only if the positions that control can come to, from the start and from the
handlers' targets, can be given depths that are words, stay inside the unit, are respected by every edge,
never underflow and are 1 at every return; and then the depth at an instruction is that of the paths which
arrive there, and none where no path arrives. It overflows only where a path arrives with a depth that is no
word. -/
theorem depths_eq_paths (u : CodeUnit) :
    ((∀ e ∈ u.handlers, e.entryDepth < Depths.limit u.instrs) →
        Depths.Ends u.instrs (Array.replicate u.instrs.size none) u.entryPoints u.depths) ∧
      ((∃ ds, u.depths = .ok ds) ↔ ∃ D, u.Assigns D) ∧
      (∀ ds, u.depths = .ok ds → ds.size = u.instrs.size ∧ ∀ pc < u.instrs.size,
        (∀ d, ds[pc]? = some (some d) ↔ u.Arrives pc d) ∧ (ds[pc]? = some none ↔ ∀ d, ¬ u.Arrives pc d)) ∧
      (u.depths = .error .overflow → ∃ pc d, u.Arrives pc d ∧ Depths.limit u.instrs ≤ d) := by
  refine ⟨fun hfit => ?_, ⟨?_, ?_⟩, fun ds h => ?_, arrives_of_overflow⟩
  · rw [depths_eq_explore hfit]
    refine Depths.explore_ends _ _ _ (by simp) ?_
    rw [Depths.unknown_replicate]
    simp only [entryPoints, List.length_append, List.length_map, List.length_reverse, List.length_singleton]
    omega
  · rintro ⟨ds, h⟩
    exact ⟨_, assigns_of_depths h⟩
  · rintro ⟨D, hD⟩
    exact depths_of_assigns hD
  · exact ⟨size_depths h, fun pc hpc => ⟨fun _ => getElem?_depths_eq_some h, getElem?_depths_eq_none h hpc⟩⟩

/-- Waits in a loop and returns; its last instruction is out of reach. -/
def waiting : CodeUnit where
  name := "waiting"
  params := []
  ret := .int .i32
  layout := none
  locals := #[]
  instrs := #[.const (.bool false), .branch .ifTrue 0, .const (.i32 5), .ret, .pop]
  handlers := []
  maxStack := 1
  native := none

/-- Returns a number; its handler is entered with as many values as a word can count, and an exception. -/
def overfull : CodeUnit :=
  { waiting with
    instrs := #[.const (.i32 5), .ret]
    handlers := [⟨0, 1, .catches .object, 0, Nat.pow 2 64 - 1, 0⟩] }

theorem depths_eq_paths_waiting :
    (waiting.depths = .ok #[some 0, some 1, some 0, some 1, none] ∧ waiting.Arrives 3 1 ∧
      ∀ d, ¬ waiting.Arrives 4 d) ∧
    overfull.depths = .error .overflow ∧ ¬ (∃ D, overfull.Assigns D) ∧
      ∃ pc d, overfull.Arrives pc d ∧ Depths.limit overfull.instrs ≤ d := by
  have h : waiting.depths = .ok #[some 0, some 1, some 0, some 1, none] := by rfl
  obtain ⟨-, hpaths⟩ := (depths_eq_paths waiting).2.2.1 _ h
  have ho : overfull.depths = .error .overflow := by rfl
  obtain ⟨-, hassigns, -, harrives⟩ := depths_eq_paths overfull
  refine ⟨⟨h, ((hpaths 3 (by decide)).1 1).1 rfl, (hpaths 4 (by decide)).2.1 rfl⟩, ho, fun hD => ?_, harrives ho⟩
  obtain ⟨ds, hds⟩ := hassigns.2 hD
  rw [ho] at hds
  cases hds

end CodeUnit

end ExprCompiler
