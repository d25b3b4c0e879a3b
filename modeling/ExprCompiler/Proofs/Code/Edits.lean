/-
What the operations on code under construction do when they succeed: each appends one draft, or binds one label,
and leaves everything else that the finished unit is made of as it is. A draft is an instruction as it was asked for,
in which a branch names its label; `Written` says what has become of it. What has been written stays written: while a
label is not bound, a branch to it is noted down for it alone, and when it is bound just those branches change.
-/
import ExprCompiler.Emit
import Mathlib.Tactic

namespace ExprCompiler

/-- An instruction as it is asked for: a branch names its label. -/
inductive Draft
  | plain (instr : Instr)
  | branch (kind : BranchKind) (label : Nat)

/-- The instruction of a draft, up to the target of a branch. -/
def Draft.instr : Draft → Instr
  | .plain i => i
  | .branch kind _ => .branch kind 0

/-- The instructions are the same, up to the target of a branch. -/
structure Instr.Resembles (i j : Instr) : Prop where
  pops : i.pops = j.pops
  pushes : i.pushes = j.pushes
  endsFlow : i.endsFlow = j.endsFlow
  branch : ∀ kind t, i = .branch kind t → ∃ t', j = .branch kind t'

theorem Instr.resembles_retarget (i : Instr) (t : Nat) : (i.retarget t).Resembles i := by
  cases i with
  | branch kind t' => exact ⟨by cases kind <;> rfl, rfl, by cases kind <;> rfl, by rintro _ _ ⟨⟩; exact ⟨t', rfl⟩⟩
  | _ => exact ⟨rfl, rfl, rfl, by rintro _ _ ⟨⟩⟩

namespace Builder

/-- The position to which a label is bound. -/
def target? (b : Builder) (label : Nat) : Option Nat :=
  b.labels[label]?.bind LabelState.pc

/-- The instruction that a draft becomes at first. -/
def link (b : Builder) : Draft → Instr
  | .plain instr => instr
  | .branch kind label => .branch kind ((b.target? label).getD unboundTarget)

/-- A draft has been written at a position. A branch leads to where its label is bound; one to a label that is
not bound yet waits for that label and for no other. -/
inductive Written (b : Builder) (pc : Nat) : Draft → Prop
  | plain {i : Instr} (code : b.instrs[pc]? = some i) (target : i.target? = none) : Written b pc (.plain i)
  | bound {kind : BranchKind} {l t : Nat} (code : b.instrs[pc]? = some (.branch kind t)) (target : b.target? l = some t)
    (settled : ∀ f ∈ b.fixups, f.pc = pc → (b.target? f.label).isSome) : Written b pc (.branch kind l)
  | waits {kind : BranchKind} {l t : Nat} (code : b.instrs[pc]? = some (.branch kind t)) (target : b.target? l = none)
    (noted : ⟨pc, l⟩ ∈ b.fixups) (alone : ∀ f ∈ b.fixups, f.pc = pc → f.label = l) : Written b pc (.branch kind l)

/-- One draft has been appended. -/
structure Appends (b b' : Builder) (d : Draft) : Prop where
  instrs : b'.instrs = b.instrs.push (b.link d)
  fixups : ∀ f, f ∈ b'.fixups ↔ f ∈ b.fixups ∨ f.pc = b.pc ∧ (b.target? f.label).getD unboundTarget = unboundTarget ∧
    ∃ kind, d = .branch kind f.label
  target : ∀ l, b'.target? l = b.target? l
  handlers : b'.handlers = b.handlers
  locals : b'.locals = b.locals
  head : b'.params = b.params ∧ b'.layout = b.layout

/-- No code has been appended, and no label bound except `l`, which is bound here. -/
structure Binds (b b' : Builder) (l : Nat) : Prop where
  instrs : b'.instrs = patch b.instrs (b.fixups.filter (·.label = l)) b.pc
  fixups : b'.fixups = b.fixups.filter (·.label ≠ l)
  bound : b.target? l = none ∧ b'.target? l = some b.pc
  target : ∀ k, k ≠ l → b'.target? k = b.target? k
  handlers : b'.handlers = b.handlers
  locals : b'.locals = b.locals
  head : b'.params = b.params ∧ b'.layout = b.layout

/-- Nothing that the finished unit is made of has changed. -/
structure Same (b b' : Builder) : Prop where
  instrs : b'.instrs = b.instrs
  fixups : b'.fixups = b.fixups
  target : ∀ l, b'.target? l = b.target? l
  handlers : b'.handlers = b.handlers
  locals : b'.locals = b.locals
  head : b'.params = b.params ∧ b'.layout = b.layout

variable {b b' b'' : Builder} {l : Nat} {i : Instr}

theorem Same.refl (b : Builder) : b.Same b := ⟨rfl, rfl, fun _ => rfl, rfl, rfl, rfl, rfl⟩

theorem Same.pc (h : b.Same b') : b'.pc = b.pc := by
  rw [Builder.pc, Builder.pc, h.instrs]

theorem Same.trans (h : b.Same b') (h' : b'.Same b'') : b.Same b'' :=
  ⟨h'.instrs.trans h.instrs, h'.fixups.trans h.fixups, fun l => (h'.target l).trans (h.target l),
    h'.handlers.trans h.handlers, h'.locals.trans h.locals, h'.head.1.trans h.head.1, h'.head.2.trans h.head.2⟩

theorem Same.link (h : b.Same b') (d : Draft) : b'.link d = b.link d := by
  cases d with
  | plain i => rfl
  | branch kind l => simp only [Builder.link, h.target]

theorem Same.appends {d : Draft} (h : b.Same b') (h' : b'.Appends b'' d) : b.Appends b'' d where
  instrs := by rw [h'.instrs, h.instrs, h.link]
  fixups f := by rw [h'.fixups, h.fixups, h.pc, h.target]
  target l := (h'.target l).trans (h.target l)
  handlers := h'.handlers.trans h.handlers
  locals := h'.locals.trans h.locals
  head := ⟨h'.head.1.trans h.head.1, h'.head.2.trans h.head.2⟩

theorem Same.binds (h : b.Same b') (h' : b'.Binds b'' l) : b.Binds b'' l where
  instrs := by rw [h'.instrs, h.instrs, h.fixups, h.pc]
  fixups := by rw [h'.fixups, h.fixups]
  bound := ⟨(h.target l).symm.trans h'.bound.1, by rw [h'.bound.2, h.pc]⟩
  target k hk := (h'.target k hk).trans (h.target k)
  handlers := h'.handlers.trans h.handlers
  locals := h'.locals.trans h.locals
  head := ⟨h'.head.1.trans h.head.1, h'.head.2.trans h.head.2⟩

theorem same_nest (h : b.nest i = .ok b') : b.Same b' := by
  unfold nest at h
  split at h
  · cases h
    exact ⟨rfl, rfl, fun _ => rfl, rfl, rfl, rfl, rfl⟩
  · split at h
    · cases h
    · cases h
      exact ⟨rfl, rfl, fun _ => rfl, rfl, rfl, rfl, rfl⟩
  · cases h
    exact .refl b

theorem same_apply (h : b.apply i = .ok b') : b.Same b' := by
  unfold apply at h
  split at h
  · cases h
    exact .refl b
  · split at h
    · cases h
    · cases h
      exact ⟨rfl, rfl, fun _ => rfl, rfl, rfl, rfl, rfl⟩

theorem bind_ok_inv {α β : Type} {x : Except Defect α} {f : α → Except Defect β} {c : β} (h : x >>= f = .ok c) :
    ∃ a, x = .ok a ∧ f a = .ok c := by
  cases x with
  | error d => cases h
  | ok a => exact ⟨a, rfl, h⟩

theorem labelState_inv {s : LabelState} (h : b.labelState l = .ok s) : b.labels[l]? = some s := by
  unfold labelState at h
  split at h
  · cases h
    assumption
  · cases h

theorem same_merge {d : Nat} (h : b.merge l d = .ok b') : b.Same b' := by
  obtain ⟨s, hs, h⟩ := bind_ok_inv h
  have hl := labelState_inv hs
  split at h
  · split at h
    · cases h
      exact .refl b
    · cases h
  · cases h
    refine ⟨rfl, rfl, fun k => ?_, rfl, rfl, rfl, rfl⟩
    -- only the depth of the label is new
    unfold target?
    rw [Array.getElem?_setIfInBounds]
    split
    · rename_i hk
      subst hk
      split
      · rw [hl]
        rfl
      · rename_i hge
        rw [Array.getElem?_eq_none (by omega)]
    · rfl

theorem same_mergeCurrent (h : b.mergeCurrent l = .ok b') : b.Same b' := by
  unfold mergeCurrent at h
  split at h
  · exact same_merge h
  · cases h
    exact .refl b

theorem appends_emit (h : b.emit i = .ok b') : b.Appends b' (.plain i) := by
  unfold emit at h
  dsimp only at h
  split at h
  · cases h
  · obtain ⟨b₁, h₁, h⟩ := bind_ok_inv h
    obtain ⟨b₂, h₂, h⟩ := bind_ok_inv h
    cases h
    refine ((same_nest h₁).trans (same_apply h₂)).appends ⟨rfl, fun f => ?_, fun _ => rfl, rfl, rfl, rfl, rfl⟩
    simp

/-- Branches are not emitted in this way. -/
theorem target?_of_emit (h : b.emit i = .ok b') : i.target? = none := by
  unfold emit at h
  dsimp only at h
  split at h
  · cases h
  · rename_i hnone
    exact Option.not_isSome_iff_eq_none.1 hnone

theorem appends_branch {kind : BranchKind} (h : b.branch kind l = .ok b') : b.Appends b' (.branch kind l) := by
  obtain ⟨s, hs, h⟩ := bind_ok_inv h
  obtain ⟨b₁, h₁, h⟩ := bind_ok_inv h
  obtain ⟨b₂, h₂, h⟩ := bind_ok_inv h
  have hsame := (same_apply h₁).trans (same_mergeCurrent h₂)
  have htarget : b.target? l = s.pc := by
    rw [target?, labelState_inv hs]
    rfl
  cases h
  refine hsame.appends ⟨?_, fun f => ?_, fun _ => rfl, rfl, rfl, rfl, rfl⟩
  · rw [hsame.link, link, htarget]
  · -- the branch waits for its label if it has the placeholder for a target
    have hlabel : (∃ kind', Draft.branch kind l = .branch kind' f.label) ↔ f.label = l := by
      constructor
      · rintro ⟨_, ⟨⟩⟩
        rfl
      · rintro rfl
        exact ⟨kind, rfl⟩
    rw [hsame.target, hlabel]
    obtain ⟨at_, k⟩ := f
    dsimp only
    split
    · rename_i hplace
      rw [Array.mem_push, Fixup.mk.injEq]
      constructor
      · rintro (hf | ⟨rfl, rfl⟩)
        · exact .inl hf
        · exact .inr ⟨rfl, by rw [htarget, hplace], rfl⟩
      · rintro (hf | ⟨hpc, -, hk⟩)
        · exact .inl hf
        · exact .inr ⟨hpc, hk⟩
    · rename_i hplace
      refine ⟨.inl, ?_⟩
      rintro (hf | ⟨-, hnone, rfl⟩)
      · exact hf
      · rw [htarget] at hnone
        exact absurd hnone hplace

theorem binds_mark (h : b.mark l = .ok b') : b.Binds b' l := by
  obtain ⟨s, hs, h⟩ := bind_ok_inv h
  dsimp only at h
  split at h
  · cases h
  rename_i hfree
  obtain ⟨b₁, h₁, h⟩ := bind_ok_inv h
  obtain ⟨s₁, hs₁, h⟩ := bind_ok_inv h
  have hsame := same_mergeCurrent h₁
  have hl := labelState_inv hs
  have hl₁ := labelState_inv hs₁
  cases h
  refine hsame.binds ⟨rfl, rfl, ⟨?_, ?_⟩, fun k hk => ?_, rfl, rfl, rfl, rfl⟩
  · rw [hsame.target, target?, hl]
    simpa using hfree
  · unfold target?
    rw [Array.getElem?_setIfInBounds_self_of_lt (Array.getElem?_eq_some_iff.1 hl₁).1]
    rfl
  · unfold target?
    rw [Array.getElem?_setIfInBounds_ne (Ne.symm hk)]

theorem binds_markEntry {d : Nat} (h : b.markEntry l d = .ok b') : b.Binds b' l := by
  obtain ⟨b₁, h₁, h⟩ := bind_ok_inv h
  exact (same_merge h₁).binds (binds_mark h)

/-- A new label is not bound. -/
theorem same_newLabel (b : Builder) : b.Same b.newLabel.2 := by
  refine ⟨rfl, rfl, fun k => ?_, rfl, rfl, rfl, rfl⟩
  show ((b.labels.push {})[k]?).bind LabelState.pc = (b.labels[k]?).bind LabelState.pc
  rw [Array.getElem?_push]
  split
  · rename_i hk
    rw [Array.getElem?_eq_none (by omega)]
    rfl
  · rfl

theorem target?_of_labelPc {p : Nat} (h : b.labelPc l = .ok p) : b.target? l = some p := by
  obtain ⟨s, hs, h⟩ := bind_ok_inv h
  split at h
  · rename_i hp
    cases h
    rw [target?, labelState_inv hs]
    exact hp
  · cases h

/-! ## Patched code -/

theorem retarget_eq_self {t : Nat} (h : i.target? = none) : i.retarget t = i := by
  cases i with
  | branch kind t => cases h
  | _ => rfl

/-- Patching puts the target into the instructions at the positions of the fixups. -/
theorem getElem?_patch (instrs : Array Instr) (fixups : Array Fixup) (t pc : Nat) :
    (patch instrs fixups t)[pc]? =
      if ∃ f ∈ fixups, f.pc = pc then instrs[pc]?.map (Instr.retarget t) else instrs[pc]? := by
  have hlist : ∀ (fs : List Fixup) (is : Array Instr),
      (fs.foldl (fun is f => is.modify f.pc (Instr.retarget t)) is)[pc]? =
        if ∃ f ∈ fs, f.pc = pc then is[pc]?.map (Instr.retarget t) else is[pc]? := by
    intro fs
    induction fs with
    | nil => simp
    | cons f fs ih =>
      intro is
      have hidem : ∀ i : Instr, (i.retarget t).retarget t = i.retarget t := fun i => by cases i <;> rfl
      rw [List.foldl_cons, ih, Array.getElem?_modify]
      by_cases hf : f.pc = pc
      · by_cases hfs : ∃ f ∈ fs, f.pc = pc
        · simp [hf, hfs, Option.map_map, Function.comp_def, hidem]
        · simp [hf, hfs]
      · simp [hf]
  rw [patch, ← Array.foldl_toList, hlist]
  simp

theorem size_patch (instrs : Array Instr) (fixups : Array Fixup) (t : Nat) :
    (patch instrs fixups t).size = instrs.size := by
  have hlist : ∀ (fs : List Fixup) (is : Array Instr),
      (fs.foldl (fun is f => is.modify f.pc (Instr.retarget t)) is).size = is.size := by
    intro fs
    induction fs with
    | nil => simp
    | cons f fs ih => simp [ih]
  rw [patch, ← Array.foldl_toList, hlist]

theorem Appends.pc (h : b.Appends b' d) : b'.pc = b.pc + 1 := by
  simp [Builder.pc, h.instrs]

theorem Binds.pc (h : b.Binds b' l) : b'.pc = b.pc := by
  rw [Builder.pc, h.instrs, size_patch]
  rfl

/-! ## What has been written -/

variable {pc : Nat} {d e : Draft}

theorem Written.code (h : b.Written pc d) :
    ∃ i, b.instrs[pc]? = some i ∧ i.pops = d.instr.pops ∧ i.pushes = d.instr.pushes ∧ i.endsFlow = d.instr.endsFlow ∧
      (i = .ret → d.instr = .ret) := by
  cases h with
  | plain code target => exact ⟨_, code, rfl, rfl, rfl, id⟩
  | @bound kind l t code target settled | @waits kind l t code target noted alone =>
    exact ⟨_, code, by cases kind <;> rfl, rfl, by cases kind <;> rfl, by rintro ⟨⟩⟩

theorem Written.lt (h : b.Written pc d) : pc < b.pc := by
  obtain ⟨i, hi, -⟩ := h.code
  exact (Array.getElem?_eq_some_iff.1 hi).1

/-- A branch that waits for its label has been written as nothing else. -/
theorem Written.eq_of_waits {kind : BranchKind} (h : b.Written pc (.branch kind l)) (hl : b.target? l = none)
    (h' : b.Written pc d) : d = .branch kind l := by
  cases h with
  | bound code target => rw [hl] at target; cases target
  | waits code target noted alone =>
    cases h' with
    | plain code' target' =>
      obtain rfl := Option.some.inj (code.symm.trans code')
      cases target'
    | bound code' target' settled =>
      have := settled _ noted rfl
      rw [hl] at this
      cases this
    | waits code' target' noted' alone' =>
      obtain rfl : l = _ := alone' _ noted rfl
      cases Option.some.inj (code.symm.trans code')
      rfl

/-- Only the code, the labels and the branches that wait for them matter. -/
theorem Written.of_eq (hw : b.Written pc d) (hi : b'.instrs = b.instrs) (hf : b'.fixups = b.fixups)
    (ht : b'.target? = b.target?) : b'.Written pc d := by
  cases hw with
  | plain code target => exact .plain (hi ▸ code) target
  | bound code target settled => exact .bound (hi ▸ code) (ht ▸ target) (by rw [hf, ht]; exact settled)
  | waits code target noted alone => exact .waits (hi ▸ code) (ht ▸ target) (hf ▸ noted) (by rw [hf]; exact alone)

theorem Same.written (h : b.Same b') (hw : b.Written pc d) : b'.Written pc d :=
  hw.of_eq h.instrs h.fixups (funext h.target)

namespace Appends

theorem getElem? (h : b.Appends b' d) (pc : Nat) :
    b'.instrs[pc]? = if pc = b.pc then some (b.link d) else b.instrs[pc]? := by
  rw [h.instrs, Array.getElem?_push]
  rfl

/-- What was written before is written still. -/
theorem written (h : b.Appends b' d) (hw : b.Written pc e) : b'.Written pc e := by
  have hne : pc ≠ b.pc := hw.lt.ne
  have hcode : b'.instrs[pc]? = b.instrs[pc]? := by rw [h.getElem?, if_neg hne]
  have hold : ∀ f ∈ b'.fixups, f.pc = pc → f ∈ b.fixups := by
    intro f hf hpc
    rcases (h.fixups f).1 hf with hf | ⟨hnew, -⟩
    · exact hf
    · exact absurd (hpc.symm.trans hnew) hne
  cases hw with
  | plain code target => exact .plain (hcode.trans code) target
  | bound code target settled =>
    refine .bound (hcode.trans code) ((h.target _).trans target) fun f hf hpc => ?_
    rw [h.target]
    exact settled f (hold f hf hpc) hpc
  | waits code target noted alone =>
    exact .waits (hcode.trans code) ((h.target _).trans target) ((h.fixups _).2 (.inl noted)) fun f hf hpc =>
      alone f (hold f hf hpc) hpc

/-- The draft is written, if no other branch waits at its position. -/
theorem here (h : b.Appends b' d) (hnoted : ∀ f ∈ b.fixups, f.pc < b.pc)
    (hplain : ∀ i, d = .plain i → i.target? = none) : b'.Written b.pc d := by
  have hcode : b'.instrs[b.pc]? = some (b.link d) := by rw [h.getElem?, if_pos rfl]
  have hnew : ∀ f ∈ b'.fixups, f.pc = b.pc → ∃ kind, d = .branch kind f.label := by
    intro f hf hpc
    rcases (h.fixups f).1 hf with hf | ⟨-, -, hd⟩
    · exact absurd hpc (hnoted f hf).ne
    · exact hd
  cases d with
  | plain i => exact .plain hcode (hplain i rfl)
  | branch kind l =>
    have hlabel : ∀ f ∈ b'.fixups, f.pc = b.pc → f.label = l := by
      intro f hf hpc
      obtain ⟨_, ⟨⟩⟩ := hnew f hf hpc
      rfl
    rcases ht : b.target? l with _ | t
    · refine .waits hcode ((h.target l).trans ht) ((h.fixups _).2 (.inr ⟨rfl, ?_, kind, rfl⟩)) hlabel
      rw [ht]
      rfl
    · rw [link, ht] at hcode
      refine .bound hcode ((h.target l).trans ht) fun f hf hpc => ?_
      rw [hlabel f hf hpc, h.target, ht]
      rfl

/-- Branches wait at positions before the end. -/
theorem noted (h : b.Appends b' d) (hnoted : ∀ f ∈ b.fixups, f.pc < b.pc) : ∀ f ∈ b'.fixups, f.pc < b'.pc := by
  intro f hf
  rw [h.pc]
  rcases (h.fixups f).1 hf with hf | ⟨hpc, -⟩
  · exact (hnoted f hf).trans (Nat.lt_succ_self _)
  · exact hpc ▸ Nat.lt_succ_self _

end Appends

namespace Binds

/-- The branches that wait for the label lead here now; all other code is as it was. -/
theorem getElem? (h : b.Binds b' l) (pc : Nat) :
    b'.instrs[pc]? = if ⟨pc, l⟩ ∈ b.fixups then b.instrs[pc]?.map (Instr.retarget b.pc) else b.instrs[pc]? := by
  have hiff : (∃ f ∈ b.fixups.filter (·.label = l), f.pc = pc) ↔ ⟨pc, l⟩ ∈ b.fixups := by
    constructor
    · rintro ⟨⟨at_, k⟩, hf, rfl⟩
      obtain ⟨hnoted, hk⟩ := Array.mem_filter.1 hf
      obtain rfl : k = l := by simpa using hk
      exact hnoted
    · intro hf
      exact ⟨_, Array.mem_filter.2 ⟨hf, by simp⟩, rfl⟩
  rw [h.instrs, getElem?_patch]
  simp only [hiff]

/-- An instruction is what it was, up to the target of a branch. -/
theorem instr (h : b.Binds b' l) {i : Instr} (hi : b'.instrs[pc]? = some i) :
    ∃ j, b.instrs[pc]? = some j ∧ i.Resembles j := by
  rw [h.getElem?] at hi
  split at hi
  · obtain ⟨j, hj, rfl⟩ := Option.map_eq_some_iff.1 hi
    exact ⟨j, hj, j.resembles_retarget b.pc⟩
  · exact ⟨i, hi, rfl, rfl, rfl, fun kind t h => ⟨t, h⟩⟩

theorem mem_fixups (h : b.Binds b' l) {f : Fixup} : f ∈ b'.fixups ↔ f ∈ b.fixups ∧ f.label ≠ l := by
  simp [h.fixups]

theorem isSome_target? (h : b.Binds b' l) {k : Nat} (hk : (b.target? k).isSome) : (b'.target? k).isSome := by
  by_cases hkl : k = l
  · subst hkl
    rw [h.bound.1] at hk
    cases hk
  · rw [h.target k hkl]
    exact hk

/-- What was written before is written still: a branch that waits for the label is patched, and no other. -/
theorem written (h : b.Binds b' l) (hw : b.Written pc d) : b'.Written pc d := by
  have hkept : ⟨pc, l⟩ ∉ b.fixups → b'.instrs[pc]? = b.instrs[pc]? := fun hnot => by rw [h.getElem?, if_neg hnot]
  cases hw with
  | @plain i code target =>
    refine .plain ?_ target
    rw [h.getElem?, code]
    simp [retarget_eq_self target]
  | @bound kind k t code target settled =>
    have hnot : ⟨pc, l⟩ ∉ b.fixups := fun hf => by
      have := settled _ hf rfl
      rw [h.bound.1] at this
      cases this
    have hk : k ≠ l := by
      rintro rfl
      rw [h.bound.1] at target
      cases target
    exact .bound ((hkept hnot).trans code) ((h.target k hk).trans target) fun f hf hpc =>
      h.isSome_target? (settled f (h.mem_fixups.1 hf).1 hpc)
  | @waits kind k t code target noted alone =>
    by_cases hk : k = l
    · subst hk
      have hcode : b'.instrs[pc]? = some (.branch kind b.pc) := by
        rw [h.getElem?, if_pos noted, code]
        rfl
      refine .bound hcode h.bound.2 fun f hf hpc => ?_
      exact absurd (alone f (h.mem_fixups.1 hf).1 hpc) (h.mem_fixups.1 hf).2
    · have hnot : ⟨pc, l⟩ ∉ b.fixups := fun hf => hk (alone _ hf rfl).symm
      exact .waits ((hkept hnot).trans code) ((h.target k hk).trans target) (h.mem_fixups.2 ⟨noted, hk⟩) fun f hf =>
        alone f (h.mem_fixups.1 hf).1

end Binds

/-! ## Finished units -/

/-- The unit that code was finished to: no branch waits for its label. -/
structure Finished (b : Builder) (u : CodeUnit) : Prop where
  instrs : u.instrs = b.instrs
  fixups : b.fixups = #[]
  handlers : u.handlers = b.handlers.toList
  locals : u.locals = b.locals
  head : u.name = b.name ∧ u.params = b.params ∧ u.layout = b.layout
  native : u.native = none

theorem finished {u : CodeUnit} (h : b.finish = .ok u) : b.Finished u := by
  unfold finish at h
  split at h
  · cases h
  rename_i hlinked
  split at h
  · cases h
  cases h
  exact ⟨rfl, Array.size_eq_zero_iff.1 (Decidable.not_not.1 hlinked), rfl, rfl, ⟨rfl, rfl, rfl⟩, rfl⟩

theorem Finished.plain {u : CodeUnit} (h : b.Finished u) (hw : b.Written pc (.plain i)) : u.instrs[pc]? = some i := by
  cases hw with
  | plain code target => exact h.instrs ▸ code

/-- Branches lead to where their labels are bound. -/
theorem Finished.branch {u : CodeUnit} (h : b.Finished u) {kind : BranchKind} (hw : b.Written pc (.branch kind l)) :
    ∃ t, b.target? l = some t ∧ u.instrs[pc]? = some (.branch kind t) := by
  cases hw with
  | bound code target => exact ⟨_, target, h.instrs ▸ code⟩
  | waits code target noted =>
    rw [h.fixups] at noted
    simp at noted

end Builder

theorem EmitM.build_inv {ctx : EmitContext} {b b' : Builder} {g : Builder → Except Defect Builder}
    (h : EmitM.build g ctx b = .ok ((), b')) : g b = .ok b' := by
  unfold EmitM.build at h
  split at h
  · cases h
    assumption
  · cases h

end ExprCompiler
