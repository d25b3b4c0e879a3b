/-
Compilation keeps the stack discipline. For a tree that is formed well, code generation meets no defect
of the code under construction, and every unit that a compilation adds, that of the root or of a nested
lambda, passes the check of its depths, whether the settings ask for that check or not.
-/
import ExprCompiler.Native.Lower
import ExprCompiler.Proofs.Closure.Slots
import ExprCompiler.Proofs.Compile.Analysis
import ExprCompiler.Proofs.Emit.Balance

namespace ExprCompiler

/-- The depths of a unit have no problem, and its table has the entries of regions of the kinds `P`. -/
structure CodeUnit.Verifies (P : Tries) (u : CodeUnit) : Prop where
  depths : ∃ ds, u.depths = .ok ds
  table : Table P 0 u.instrs.size 0 0 u.handlers

/-- Refusals for a defect of the code. -/
def Refusal.isOfCode : Refusal → Bool
  | .declined _ => false
  | .defect d => d.isOfCode

/-! ## One unit -/

namespace Emit

open EmitM

variable {operators : Overloads} {P : Tries} {t : Tree}

theorem emits_result (h : t.WellFormed operators) {ctx : EmitContext} (hs : ctx.Suits operators) (ret : Ty)
    (hP : t.Tried P := by exact Tree.tried_top _) : Emits ctx 0 1 (result t ret) P := by
  have hc : Steady operators P (.of Tree.emission t) := balanced_emission h hP
  exact .ite (fun _ => (hc.discard hs).bind fun _ => .emit (.const .null) rfl) fun _ => hc.valueAs hs ret .value

theorem tracks_start (name : String) (params : List Param) (ret : Ty) (layout : Option Layout) :
    (start name params ret layout).Tracks fun _ => none where
  start := .inr ⟨rfl, rfl⟩
  code pc d _ hD := by cases hD
  labels l s p d hs := by simp [Emit.start] at hs
  handlers e he := by simp [Emit.start] at he
  noted f hf := by simp [Emit.start] at hf
  opened := rfl
  low pc d hd := by
    rcases hd with ⟨-, hd⟩ | ⟨rfl, hd⟩
    · cases hd
    · cases hd
      exact Nat.zero_le _
  awaited l s d hs := by simp [Emit.start] at hs

/-- After the code of a unit control has left, all labels are bound and all finally bodies are closed. -/
theorem yields_body (h : t.WellFormed operators) (hP : t.Tried P) {ctx : EmitContext} (hs : ctx.Suits operators)
    (name : String) (params : List Param) (ret : Ty) (layout : Option Layout) :
    Yields ctx (start name params ret layout) (body t ret) fun _ b => ∃ D, b.Tracks D ∧ b.depth = none ∧
      b.finallyNesting = 0 ∧ (∀ (l : Nat) s, b.labels[l]? = some s → s.pc.isSome) ∧
        Table P 0 b.pc 0 0 b.handlers.toList := by
  refine (emits_result h hs ret hP _ _ (tracks_start name params ret layout) (by simp)).bind fun _ b ⟨D, hb⟩ => ?_
  obtain ⟨b', D', he, ht, hg, hd, hn, hpc, hh⟩ := hb.tracks.emit (i := .ret) rfl (by simp) fun d hd => by
    obtain ⟨d₀, h₀, e⟩ := hb.shifts d hd
    cases h₀
    exact ⟨by simp [Instr.pops]; omega, fun _ => by omega⟩
  obtain ⟨-, hle, es, hes, htable⟩ := hb.guards 0 (by simp)
  refine .of_ok (build_ok he) ⟨D', ht, hd, ?_, fun l s hs => ?_, ?_⟩
  · rw [hn]
    exact hb.nesting
  · exact (hb.grows.trans hg).bound l s (by simp) (Nat.zero_le l) hs
  · rw [hh, hes, ← List.append_nil es]
    exact htable.append .nil ⟨hle, hpc.ge.trans' (Nat.le_succ _)⟩

/-- A unit is declined, or it is emitted and passes the check of its depths. -/
theorem unit_verifies (h : t.WellFormed operators) (hP : t.Tried P) (name : String) (params : List Param) (ret : Ty)
    {capture : Capture} (hc : capture.Coherent) (layout : Option Layout) :
    match unit operators name t params ret capture layout with
    | .ok u => u.Verifies P
    | .error r => r.isOfCode = false := by
  have hbody : Yields { operators, params, capture, layout } _ _ _ := yields_body h hP ⟨rfl, hc⟩ name params ret layout
  unfold Yields at hbody
  unfold unit
  rcases hx : body t ret { operators, params, capture, layout } (start name params ret layout)
    with (d | d) | ⟨_, b⟩ <;> rw [hx] at hbody
  · rfl
  · exact hbody
  · obtain ⟨D, ht, hd, hn, hl, htable⟩ := hbody
    obtain ⟨u, ds, hu, hds, hhandlers, hsize⟩ := ht.finish hd hn hl
    simp only [hu]
    exact ⟨⟨ds, hds⟩, by rw [hhandlers, hsize]; exact htable⟩

end Emit

/-! ## Lowering -/

namespace Lower

/-- Lowering meets no defect but a variable that the unit does not have. -/
def Clean {α : Type} (x : Except LowerError α) : Prop :=
  ∀ d, x = .error (.defect d) → ∃ length index, d = .outOfBounds length index

variable {α : Type}

theorem Clean.bind {β : Type} {x : Except LowerError α} {f : α → Except LowerError β} (hx : Clean x)
    (hf : ∀ a, Clean (f a)) : Clean (x >>= f) := by
  cases x with
  | error e => exact fun d h => hx d (by cases h; rfl)
  | ok a => exact hf a

theorem Clean.of_ok (a : α) : Clean (.ok a : Except LowerError α) := fun _ h => by cases h

theorem Clean.skip (r : SkipReason) : Clean (.error (.skip r) : Except LowerError α) :=
  fun _ h => by cases h

theorem Clean.malformed (p : DepthProblem) : Clean (.error (.malformed p) : Except LowerError α) :=
  fun _ h => by cases h

theorem clean_edge (entries : EntryKinds) (target : Nat) (stack : List SlotKind) :
    Clean (edge entries target stack) := by
  unfold edge
  split
  · split
    · exact .of_ok _
    · exact .skip _
  · exact .of_ok _

theorem clean_slotKind (s : Context) (i : Nat) : Clean (slotKind s i) := by
  unfold slotKind
  split
  · exact .of_ok _
  · rintro d ⟨⟩
    exact ⟨_, _, rfl⟩

theorem clean_slotOp (op : ArithOp) : Clean (slotOp op) := by
  cases op <;> intro d h <;> cases h

theorem clean_instruction (s : Context) (entries : EntryKinds) (pc : Nat) (instr : Instr) (stack : List SlotKind) :
    Clean (instruction s entries pc instr stack) := by
  unfold instruction
  split
  case h_5 =>
    split
    · exact .of_ok _
    · exact .skip _
  case h_6 => exact (clean_slotKind s _).bind fun _ => .of_ok _
  case h_7 => exact (clean_slotKind s _).bind fun _ => .of_ok _
  case h_8 => exact (clean_slotKind s _).bind fun _ => .of_ok _
  case h_9 => exact (clean_slotKind s _).bind fun _ => .of_ok _
  case h_12 => exact (clean_slotOp _).bind fun _ => .of_ok _
  case h_18 => exact (clean_edge _ _ _).bind fun _ => .of_ok _
  case h_19 => exact (clean_edge _ _ _).bind fun _ => (clean_edge _ _ _).bind fun _ => .of_ok _
  case h_20 => exact (clean_edge _ _ _).bind fun _ => (clean_edge _ _ _).bind fun _ => .of_ok _
  all_goals exact fun d h => by cases h

theorem clean_instructions (s : Context) (starts : Array Bool) : ∀ (instrs : List Instr) (pc : Nat)
    (stack : Option (List SlotKind)) (entries : EntryKinds) (ops : Array NativeOp),
    Clean (instructions s starts pc stack entries ops instrs)
  | [], pc, stack, entries, ops => by
    unfold instructions
    split
    · exact .malformed _
    · exact .of_ok _
  | instr :: rest, pc, stack, entries, ops => by
    have hlowered : ∀ (st : List SlotKind) (e : EntryKinds), Clean (do
        let lowered ← instruction s e pc instr st
        instructions s starts (pc + 1) lowered.after lowered.entries (ops.push lowered.op) rest) := fun st e =>
      (clean_instruction _ _ _ _ _).bind fun l => clean_instructions s starts rest _ _ _ _
    have htrapped : ∀ e : EntryKinds, Clean (if s.depths[pc]?.join.isSome then throw (.skip .enteredFromBelow)
        else instructions s starts (pc + 1) none e (ops.push .trap) rest) := by
      intro e
      split
      · exact .skip _
      · exact clean_instructions s starts rest _ _ _ _
    unfold instructions
    cases stack with
    | none =>
      simp only
      split
      · refine (Clean.of_ok _).bind fun _ => ?_
        split
        · exact hlowered _ _
        · exact htrapped _
      · exact (Clean.of_ok _).bind fun _ => htrapped _
    | some st =>
      simp only
      split
      · refine (clean_edge _ _ _).bind fun _ => ?_
        split
        · exact hlowered _ _
        · exact htrapped _
      · exact (Clean.of_ok _).bind fun _ => hlowered st _

theorem clean_code (u : CodeUnit) (params : List SlotKind) (ret : SlotKind) : Clean (code u params ret) := by
  unfold code
  split
  · exact .skip _
  · split
    · exact .malformed _
    · exact (clean_instructions _ _ _ _ _ _ _).bind fun _ => .of_ok _

end Lower

theorem CodeUnit.outOfBounds_of_lower {u : CodeUnit} {n : Nat} {d : Defect} (h : u.lower n = .error d) :
    ∃ length index, d = .outOfBounds length index := by
  unfold lower at h
  split at h
  · cases h
  · split at h
    · cases h
    · split at h
      · split at h
        case h_4 hc =>
          cases h
          exact Lower.clean_code _ _ _ _ hc
        all_goals cases h
      · cases h

theorem CodeUnit.isOfCode_lower {u : CodeUnit} {n : Nat} {d : Defect} (h : u.lower n = .error d) :
    d.isOfCode = false := by
  obtain ⟨length, index, rfl⟩ := outOfBounds_of_lower h
  rfl

/-! ## Sessions -/

/-- A session has kept its units, and those added since pass the check of their depths. -/
structure Session.Extends (P : Tries) (s s' : Session) : Prop where
  kept : s.units.toList <+: s'.units.toList
  added : ∀ i u, s.units.size ≤ i → s'.units[i]? = some u → u.Verifies P

namespace Session.Extends

variable {P : Tries} {s s' s'' : Session}

theorem of_units (h : s'.units = s.units) : s.Extends P s' where
  kept := by rw [h]
  added i u hi hu := by
    rw [h, Array.getElem?_eq_none hi] at hu
    cases hu

theorem size_le (h : s.Extends P s') : s.units.size ≤ s'.units.size := by
  simpa using h.kept.length_le

theorem getElem?_eq (h : s.Extends P s') {i : Nat} (hi : i < s.units.size) : s'.units[i]? = s.units[i]? := by
  obtain ⟨us, hus⟩ := h.kept
  rw [← Array.getElem?_toList, ← hus, List.getElem?_append_left (by simpa using hi), Array.getElem?_toList]

theorem trans (h : s.Extends P s') (h' : s'.Extends P s'') : s.Extends P s'' where
  kept := h.kept.trans h'.kept
  added i u hi hu := by
    by_cases hlt : i < s'.units.size
    · exact h.added i u hi (by rw [← h'.getElem?_eq hlt]; exact hu)
    · exact h'.added i u (by omega) hu

theorem push {u : CodeUnit} (hu : u.Verifies P) : s.Extends P { s with units := s.units.push u } where
  kept := by simp
  added i u' hi hu' := by
    rw [Array.getElem?_push] at hu'
    split at hu'
    · cases hu'
      exact hu
    · rw [Array.getElem?_eq_none hi] at hu'
      cases hu'

end Session.Extends

namespace CompileM

variable {α : Type} {c : Compiler} {s : Session} {P : Tries}

/-- No defect of the code is met, and only units that pass the check are added. -/
def disciplined (P : Tries) : Promise where
  change := Session.Extends P
  refusal r := r.isOfCode = false
  of_units := .of_units
  trans := .trans
  unsupported _ := rfl

/-- The compilation meets no defect of the code, adds only units that pass the check, and gives a result
with `Q` if it gives one. -/
abbrev Yields (P : Tries) (c : Compiler) (s : Session) (x : CompileM α) (Q : α → Session → Prop) : Prop :=
  (disciplined P).Kept c s x Q

theorem links_disciplined {body : Tree} (h : body.WellFormed c.operators) (hP : body.Tried P) {capture : Capture}
    (hc : capture.Coherent) (name : String) (params : List Param) (ret : Ty) :
    (disciplined P).Links c name body params ret capture := by
  have hunit := Emit.unit_verifies h hP name params ret hc (capture.layout? c.settings.fixedFieldLimit)
  refine ⟨fun r hr => ?_, fun u p text hu hp => ?_, fun u n d _ hd => CodeUnit.isOfCode_lower hd,
    fun u native s hu => ?_⟩
  · rw [unitOf] at hr
    rw [hr] at hunit
    exact hunit
  · rw [unitOf] at hu
    rw [hu] at hunit
    obtain ⟨ds, hds⟩ := hunit.depths
    rw [hds] at hp
    cases hp
  · rw [unitOf] at hu
    rw [hu] at hunit
    exact .push ⟨hunit.depths, hunit.table⟩

end CompileM

/-! ## Analysis -/

namespace Capture

theorem Coherent.empty : ({} : Capture).Coherent := fun n hn => by cases hn

theorem Coherent.grow {c c' : Capture} {cs : List CapturedConstant} {ns : List Nested} (h : c.Coherent)
    (hg : c.Grows cs ns c')
    (hns : ∀ n ∈ ns, ∀ child u l, n.capture = some child → n.artifact = .curryable u l → l.size = child.size) :
    c'.Coherent :=
  fun n hn => (hg.nested n hn).elim (h n) (hns n)

end Capture

namespace Analyze

open CompileM

variable {c : Compiler} {P : Tries}

/-- The analysis meets no defect of the code, adds only units that pass the check, and keeps captures
coherent. -/
def Keeps (P : Tries) (c : Compiler) (x : AnalyzeM Unit) : Prop :=
  ∀ scope capture s, capture.Coherent → Yields P c s (x scope capture) fun r _ => r.2.Coherent

/-- The record of a nested lambda has a layout that fits its captures, and these are coherent. -/
theorem Recorded.coherent {s s' : Session} {id : NodeId} {ty : Ty} {params : List Param} {body : Tree}
    {name : Option String}
    {n : Nested} (h : Recorded (disciplined P) c s (fun capture _ => capture.Coherent) id ty params body name n s') :
    ∀ m ∈ (n.capture.getD {}).nested ++ [n], ∀ child u l, m.capture = some child → m.artifact = .curryable u l →
      l.size = child.size := by
  cases h with
  | @record sig capture ref s₁ s' _ _ found _ _ _ =>
    intro m hm child u l hchild hart
    by_cases hempty : capture.isEmpty = true <;> simp only [hempty, if_true, Bool.false_eq_true, if_false] at hm
    · obtain rfl := List.mem_singleton.1 hm
      cases hchild
    · rcases List.mem_append.1 hm with hm | hm
      · exact found m hm child u l hchild hart
      · obtain rfl := List.mem_singleton.1 hm
        simp only [Capture.layout?, hempty, Bool.false_eq_true, if_false, Artifact.ofLayout, Artifact.curryable.injEq,
          Option.some.injEq] at hart hchild
        rw [← hchild, ← hart.2]
        exact capture.size_layout _

/-- The analysis of a tree that is formed well. -/
theorem walks_keeps :
    Walks (fun id => id) (fun t => t.WellFormed c.operators ∧ t.Tried P) fun _ x _ => Keeps P c x where
  nil _ _ _ h := .of_pure h
  append hx hy scope capture s h := (hx scope capture s h).bind fun r s' _ hr => hy scope r.2 s' hr
  within _ _ _ _ hx _ capture s h := hx _ capture s h
  decline _ _ _ _ _ _ _ _ := .decline _
  child h ht := ⟨h.1.children _ ht, h.2.children _ ht⟩
  constant _ scope capture s h := by
    rw [constant_apply]
    refine .of_pure ?_
    split
    · exact h
    · exact h.grow (.addConstant capture _) (by simp)
  parameter _ scope capture s h := by
    rw [addParam_apply]
    exact .of_pure (h.grow (.capturing _ capture _) (by simp))
  lambda {id ty params body name} h hx scope capture s hc := by
    have hmem : body ∈ (Shape.lambda params body name).children := List.mem_singleton_self body
    rw [lambda_apply]
    split
    · exact .of_pure hc
    · refine (kept_compileNested (fun s₁ _ => hx ⟨params, []⟩ {} s₁ .empty) fun ret capture _ hcapture =>
        links_disciplined (h.1.children body hmem) (h.2.children body hmem) hcapture _ params ret).bind
          fun n s' _ hn => ?_
      exact .of_pure (hc.grow (.absorb _ capture n) hn.coherent)
  inner _ _ h := h

theorem keeps_analysis {t : Tree} (h : t.WellFormed c.operators) (hP : t.Tried P) : Keeps P c t.analysis :=
  walks_keeps.analysis ⟨h, hP⟩

end Analyze

namespace CompileM

variable {c : Compiler} {s : Session} {P : Tries}

theorem isOfCode_materialize {capture : Capture} {l : Layout} {d : Defect} (h : capture.materialize l = .error d) :
    d.isOfCode = false := by
  unfold Capture.materialize Layout.instantiate at h
  split at h
  · split at h
    · cases h
      rfl
    · split at h
      · cases h
        rfl
      · cases h
  · cases h
    rfl

theorem yields_root {t : Tree} (h : t.WellFormed c.operators) (name : String) (params : List Param)
    (requested : Requested) (hP : t.Tried P := by exact Tree.tried_top _) :
    Yields P c s (root name t params requested) fun a s' => s.units.size ≤ a.unit.id ∧ a.unit.id < s'.units.size := by
  refine (kept_root (fun s₁ _ => Analyze.keeps_analysis h hP ⟨params, []⟩ {} s₁ .empty) (fun _ _ _ _ _ => rfl)
    (fun ret capture _ hc => links_disciplined h hP hc name params ret)
    fun _ _ _ _ hd => isOfCode_materialize hd).mono fun a s' _ ha => ?_
  obtain ⟨capture, ret, ha⟩ := ha
  obtain ⟨s₁, hs, -, -, hle⟩ := ha.found
  obtain ⟨u, native, -, hu, -⟩ := ha.linked.code
  exact ⟨hs.size_le.trans hle, (Array.getElem?_eq_some_iff.1 hu).1⟩

/-- From a session, a compilation meets no defect of the code. The session keeps its units, all units
that are added pass the check of their depths, and a unit that is given out is one of them. -/
structure Disciplined (c : Compiler) (s : Session) (x : CompileM Artifact) : Prop where
  refusal : ∀ r, (x c s).1 = .error r → r.isOfCode = false
  kept : s.units.toList <+: (x c s).2.units.toList
  added : ∀ i u, s.units.size ≤ i → (x c s).2.units[i]? = some u → ∃ ds, u.depths = .ok ds
  given : ∀ a, (x c s).1 = .ok a → s.units.size ≤ a.unit.id ∧ ∃ u, (x c s).2.units[a.unit.id]? = some u

theorem Yields.disciplined {x : CompileM Artifact}
    (h : Yields ⊤ c s x fun a s' => s.units.size ≤ a.unit.id ∧ a.unit.id < s'.units.size) : Disciplined c s x := by
  obtain ⟨⟨hkept, hadded⟩, hres⟩ := h
  refine ⟨fun r hr => ?_, hkept, fun i u hi hu => (hadded i u hi hu).depths, fun a ha => ?_⟩
  · rcases hx : x c s with ⟨r' | a, s'⟩ <;> rw [hx] at hr hres
    · cases hr
      exact hres
    · cases hr
  · rcases hx : x c s with ⟨r | a', s'⟩ <;> rw [hx] at ha hres
    · cases ha
    · cases ha
      exact ⟨hres.1, s'.units[a.unit.id], Array.getElem?_eq_getElem hres.2⟩

/-- Compiling a tree that is formed well, over any parameters and with any nesting of lambdas, blocks
and protected regions, keeps the stack discipline. -/
theorem compile_disciplined {c : Compiler} {t : Tree} (h : t.WellFormed c.operators) (s : Session) :
    (∀ params requested, Disciplined c s (compile t params requested)) ∧ Disciplined c s (compileLambda t) := by
  refine ⟨fun params requested => (yields_root h "root" params requested).disciplined, Yields.disciplined ?_⟩
  obtain ⟨id, ty, shape⟩ := t
  cases shape with
  | lambda params body name =>
    exact yields_root (h.children body (List.mem_singleton_self body)) (name.getD "lambda") params ty.signature?
  | _ => exact .decline _

/-- Calls a lambda that captures `p` and then, in a finally body, clears `p`. -/
def sumThenClear (p y : Param) : Tree :=
  let i32 : Ty := .int .i32
  let sum : Tree := .node 2 i32 (.arith .add (.node 0 i32 (.parameter p)) (.node 1 i32 (.parameter y)) false none)
  let adder : Tree := .node 3 (Signature.toTy ⟨[i32], i32⟩) (.lambda [y] sum none)
  let call : Tree := .node 5 i32 (.invoke adder [.node 4 i32 (.parameter p)])
  let clear : Tree := .node 8 i32 (.assign (.node 6 i32 (.parameter p)) (.node 7 i32 (.constant (.i32 0))))
  .node 9 i32 (.guarded call [] (some clear))

theorem compile_disciplined_sumThenClear :
    (sumThenClear ⟨0, "p", .int .i32⟩ ⟨1, "y", .int .i32⟩).WellFormed [] ∧
      Disciplined ⟨{}, []⟩ {} (compile (sumThenClear ⟨0, "p", .int .i32⟩ ⟨1, "y", .int .i32⟩)
        [⟨0, "p", .int .i32⟩] none) := by
  have h : (sumThenClear ⟨0, "p", .int .i32⟩ ⟨1, "y", .int .i32⟩).WellFormed [] := by
    have hi32 : (Ty.int .i32).isVoid = false := rfl
    simp only [Tree.WellFormed, sumThenClear, Tree.all_node, Shape.children, Shape.WellFormed, List.flatMap_nil,
      Option.toList_some, List.cons_append, List.nil_append, List.forall_mem_cons, List.not_mem_nil,
      IsEmpty.forall_iff, implies_true, and_true, true_and]
    exact hi32
  exact ⟨h, (compile_disciplined (c := ⟨{}, []⟩) h {}).1 _ _⟩

end CompileM

end ExprCompiler
