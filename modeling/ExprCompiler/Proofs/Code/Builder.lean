/-
The builder's book-keeping is right. A map of depths goes with the code written so far: it has a depth
for each instruction that control reaches, and the builder's own depth is that of the next one. Each
operation of the builder keeps the two together, so that the finished unit has depths. What has been
written stays written, and so does what is known about a label that is not touched. Code that only leads
forward cannot have lifted the stack by more than its own length.
-/
import ExprCompiler.Proofs.Code.Depth
import ExprCompiler.Proofs.Code.Edits

namespace ExprCompiler

/-- By how much an instruction changes the number of open finally bodies. -/
def Instr.opening : Instr → Int
  | .enterFinally => 1
  | .endFinally => -1
  | _ => 0

/-- An instruction adds one value at most. -/
theorem Instr.pushes_le (i : Instr) : i.pushes ≤ i.pops + 1 := by
  unfold pushes
  split
  all_goals first | omega | skip
  · exact Nat.le_refl 2
  · split <;> omega
  · split <;> omega

namespace Builder

/-! ## Code and depths -/

/-- Control comes to a position with a depth: to an instruction that is written, or to the next one. -/
def At (b : Builder) (D : Nat → Option Nat) (pc d : Nat) : Prop :=
  (pc < b.pc ∧ D pc = some d) ∨ (pc = b.pc ∧ b.depth = some d)

/-- An instruction that control reaches with depth `d` finds its operands, and control comes with the
depth that it leaves to what follows it. -/
structure Leads (b : Builder) (D : Nat → Option Nat) (pc d : Nat) (draft : Draft) : Prop where
  operands : draft.instr.pops ≤ d
  returns : draft.instr = .ret → d = 1
  next : draft.instr.endsFlow = false → b.At D (pc + 1) (d - draft.instr.pops + draft.instr.pushes)
  target : ∀ kind l, draft = .branch kind l →
    ∃ s, b.labels[l]? = some s ∧ s.depth = some (d - draft.instr.pops + draft.instr.pushes)

/-- The map `D` gives the depths of the code written so far. -/
structure Tracks (b : Builder) (D : Nat → Option Nat) : Prop where
  start : b.At D 0 0
  code : ∀ pc d, pc < b.pc → D pc = some d → ∃ draft, b.Written pc draft ∧ b.Leads D pc d draft
  labels : ∀ (l : Nat) s p d, b.labels[l]? = some s → s.pc = some p → s.depth = some d → b.At D p d
  handlers : ∀ e ∈ b.handlers, b.At D e.target e.entryDepth
  /-- Branches wait only for labels that are not bound. -/
  noted : ∀ f ∈ b.fixups, f.pc < b.pc ∧ f.label < b.labels.size ∧ b.target? f.label = none
  opened : (b.finallyNesting : Int) = (b.instrs.toList.map Instr.opening).sum
  low : ∀ pc d, b.At D pc d → d ≤ pc
  awaited : ∀ (l : Nat) s d, b.labels[l]? = some s → s.pc = none → s.depth = some d → d ≤ b.pc

/-- Code has been added and what was written before is written still. Labels outside of `open_` are as they
were, and those that are new are bound. -/
structure Grows (open_ : List Nat) (b : Builder) (D : Nat → Option Nat) (b' : Builder) (D' : Nat → Option Nat) :
    Prop where
  reached : ∀ pc d, b.At D pc d → b'.At D' pc d
  pc_le : b.pc ≤ b'.pc
  written : ∀ pc draft, b.Written pc draft → b'.Written pc draft
  handlers : b.handlers.toList <+: b'.handlers.toList
  locals : b.locals.toList <+: b'.locals.toList
  regions : ∀ e ∈ b'.handlers, e ∈ b.handlers ∨ b.pc ≤ e.start ∧ e.stop ≤ b'.pc
  size : b.labels.size ≤ b'.labels.size
  kept : ∀ l s, l ∉ open_ → b.labels[l]? = some s → b'.labels[l]? = some s
  bound : ∀ l s, l ∉ open_ → b.labels.size ≤ l → b'.labels[l]? = some s → s.pc.isSome
  head : b'.name = b.name ∧ b'.params = b.params ∧ b'.layout = b.layout

/-- From depth `d + m` to depth `d + n`, unless control has left. -/
def Shifts (m n : Nat) (b b' : Builder) : Prop :=
  ∀ d', b'.depth = some d' → ∃ d, b.depth = some d ∧ d' + m = d + n

variable {b b' b'' : Builder} {D D' D'' : Nat → Option Nat} {ls : List Nat} {d : Nat} {i : Instr}
  {L : Array LabelState}

theorem Shifts.trans {m n k : Nat} (h : Shifts m n b b') (h' : Shifts n k b' b'') : Shifts m k b b'' := by
  intro d₂ h₂
  obtain ⟨d₁, h₁, e₁⟩ := h' d₂ h₂
  obtain ⟨d, h₀, e₀⟩ := h d₁ h₁
  exact ⟨d, h₀, by omega⟩

theorem Shifts.add {m n : Nat} (h : Shifts m n b b') (k : Nat) : Shifts (m + k) (n + k) b b' := by
  intro d₁ h₁
  obtain ⟨d, h₀, e₀⟩ := h d₁ h₁
  exact ⟨d, h₀, by omega⟩

namespace Grows

theorem refl : Grows ls b D b D where
  reached _ _ h := h
  pc_le := le_rfl
  written _ _ h := h
  handlers := List.prefix_rfl
  locals := List.prefix_rfl
  regions _ h := .inl h
  size := le_rfl
  kept _ _ _ h := h
  bound l s _ hl hs := absurd hs (by rw [Array.getElem?_eq_none hl]; simp)
  head := ⟨rfl, rfl, rfl⟩

theorem trans (h : Grows ls b D b' D') (h' : Grows ls b' D' b'' D'') : Grows ls b D b'' D'' where
  reached pc d hd := h'.reached pc d (h.reached pc d hd)
  pc_le := h.pc_le.trans h'.pc_le
  written pc draft hw := h'.written pc draft (h.written pc draft hw)
  handlers := h.handlers.trans h'.handlers
  locals := h.locals.trans h'.locals
  regions e he := by
    rcases h'.regions e he with he | ⟨h₁, h₂⟩
    · rcases h.regions e he with he | ⟨h₁, h₂⟩
      · exact .inl he
      · exact .inr ⟨h₁, h₂.trans h'.pc_le⟩
    · exact .inr ⟨h.pc_le.trans h₁, h₂⟩
  size := h.size.trans h'.size
  kept l s hl hs := h'.kept l s hl (h.kept l s hl hs)
  bound l s hl hge hs := by
    by_cases hlt : l < b'.labels.size
    · obtain ⟨s', hs'⟩ : ∃ s', b'.labels[l]? = some s' := ⟨b'.labels[l], by simp [hlt]⟩
      have := h'.kept l s' hl hs'
      rw [this] at hs
      exact Option.some.inj hs ▸ h.bound l s' hl hge hs'
    · exact h'.bound l s hl (by omega) hs
  head := ⟨h'.head.1.trans h.head.1, h'.head.2.1.trans h.head.2.1, h'.head.2.2.trans h.head.2.2⟩

theorem mono {ms : List Nat} (h : Grows ls b D b' D') (hsub : ls ⊆ ms) : Grows ms b D b' D' where
  reached := h.reached
  pc_le := h.pc_le
  written := h.written
  handlers := h.handlers
  locals := h.locals
  regions := h.regions
  size := h.size
  kept l s hl := h.kept l s fun hm => hl (hsub hm)
  bound l s hl := h.bound l s fun hm => hl (hsub hm)
  head := h.head

/-- New labels that have been bound need no mention. -/
theorem close (h : Grows ls b D b' D') (ms : List Nat)
    (hls : ∀ l ∈ ls, l ∉ ms → b.labels.size ≤ l ∧ ∀ s, b'.labels[l]? = some s → s.pc.isSome) :
    Grows ms b D b' D' where
  reached := h.reached
  pc_le := h.pc_le
  written := h.written
  handlers := h.handlers
  locals := h.locals
  regions := h.regions
  size := h.size
  kept l s hl hs := by
    refine h.kept l s (fun hm => ?_) hs
    have := (hls l hm hl).1
    rw [Array.getElem?_eq_none this] at hs
    cases hs
  bound l s hl hge hs := by
    by_cases hm : l ∈ ls
    · exact (hls l hm hl).2 s hs
    · exact h.bound l s hm hge hs
  head := h.head

end Grows

/-! ## Writing an instruction -/

/-- What is known about labels after an instruction has been written: a label that is bound is as it
was, and no depth is forgotten. -/
structure LabelsKept (b b' : Builder) : Prop where
  size : b'.labels.size = b.labels.size
  bound : ∀ (l : Nat) s', b'.labels[l]? = some s' → s'.pc.isSome → b.labels[l]? = some s'
  depth : ∀ (l : Nat) s d, b.labels[l]? = some s → s.depth = some d →
    ∃ s', b'.labels[l]? = some s' ∧ s'.depth = some d

theorem LabelsKept.of_eq (h : b'.labels = b.labels) : LabelsKept b b' where
  size := by rw [h]
  bound l s' hs _ := by rw [← h]; exact hs
  depth l s d hs hd := ⟨s, by rw [h]; exact hs, hd⟩

/-- The depth after an instruction. -/
def depthAfter (i : Instr) (d : Option Nat) : Option Nat :=
  if i.endsFlow then none else d.map fun d => d - i.pops + i.pushes

theorem at_push {pc : Nat} (hpc : b'.pc = b.pc + 1) (h : b.At D pc d) :
    b'.At (Function.update D b.pc b.depth) pc d := by
  rcases h with ⟨hlt, h⟩ | ⟨rfl, h⟩
  · refine .inl ⟨by omega, ?_⟩
    rw [Function.update_of_ne (by omega)]
    exact h
  · refine .inl ⟨by omega, ?_⟩
    rw [Function.update_self]
    exact h

/-- Control still comes where it came before, and no label has lost its depth. -/
theorem Leads.mono {pc : Nat} {draft : Draft} (h : b.Leads D pc d draft) (hat : ∀ pc d, b.At D pc d → b'.At D' pc d)
    (hdepth : ∀ (l : Nat) s d, b.labels[l]? = some s → s.depth = some d →
      ∃ s', b'.labels[l]? = some s' ∧ s'.depth = some d) : b'.Leads D' pc d draft := by
  refine ⟨h.operands, h.returns, fun hf => hat _ _ (h.next hf), fun kind l e => ?_⟩
  obtain ⟨s, hs, hsd⟩ := h.target kind l e
  exact hdepth l s _ hs hsd

theorem opening_link (draft : Draft) : (b.link draft).opening = draft.instr.opening := by
  cases draft <;> rfl

/-- The depths of the code with one more instruction. -/
theorem Tracks.push {draft : Draft} (h : b.Tracks D) (ha : b.Appends b' draft) (hl : LabelsKept b b')
    (hopen : (b'.finallyNesting : Int) = b.finallyNesting + draft.instr.opening)
    (hplain : ∀ i, draft = .plain i → i.target? = none)
    (hbranch : ∀ kind l, draft = .branch kind l → l < b.labels.size ∧ b.target? l = none)
    (hdepth : b'.depth = depthAfter draft.instr b.depth)
    (hleads : ∀ d, b.depth = some d → draft.instr.pops ≤ d ∧ (draft.instr = .ret → d = 1) ∧
      ∀ kind l, draft = .branch kind l →
        ∃ s, b'.labels[l]? = some s ∧ s.depth = some (d - draft.instr.pops + draft.instr.pushes))
    (hawaited : ∀ (l : Nat) s d, b'.labels[l]? = some s → s.pc = none → s.depth = some d → d ≤ b.pc) :
    b'.Tracks (Function.update D b.pc b.depth) := by
  have hpc : b'.pc = b.pc + 1 := ha.pc
  have hat : ∀ pc d, b.At D pc d → b'.At (Function.update D b.pc b.depth) pc d := fun _ _ => at_push hpc
  have hhere : b'.Written b.pc draft := ha.here (fun f hf => (h.noted f hf).1) hplain
  refine ⟨hat _ _ h.start, fun pc d hlt hD => ?_, fun l s p d hs hp hsd => ?_, fun e he => ?_, fun f hf => ?_,
    by rw [hopen, h.opened, ha.instrs]; simp [opening_link], fun pc d hd => ?_, fun l s d hs hp hsd => ?_⟩
  · by_cases hcur : pc = b.pc
    · subst hcur
      rw [Function.update_self] at hD
      obtain ⟨hops, hret, htarget⟩ := hleads d hD
      refine ⟨draft, hhere, hops, hret, fun hf => .inr ⟨hpc.symm, ?_⟩, htarget⟩
      rw [hdepth, depthAfter, hf, hD]
      rfl
    · rw [Function.update_of_ne hcur] at hD
      obtain ⟨old, hold, hleads⟩ := h.code pc d (by omega) hD
      exact ⟨old, ha.written hold, hleads.mono hat hl.depth⟩
  · exact hat p d (h.labels l s p d (hl.bound l s hs (by simp [hp])) hp hsd)
  · exact hat _ _ (h.handlers e (ha.handlers ▸ he))
  · rw [hpc, hl.size, ha.target]
    rcases (ha.fixups f).1 hf with hf | ⟨hf, -, kind, hd⟩
    · obtain ⟨hlt, hlabel, hfree⟩ := h.noted f hf
      exact ⟨by omega, hlabel, hfree⟩
    · obtain ⟨hlabel, hfree⟩ := hbranch kind f.label hd
      exact ⟨by omega, hlabel, hfree⟩
  · rcases hd with ⟨hlt, hd⟩ | ⟨rfl, hd⟩
    · by_cases hcur : pc = b.pc
      · subst hcur
        rw [Function.update_self] at hd
        exact h.low _ _ (.inr ⟨rfl, hd⟩)
      · rw [Function.update_of_ne hcur] at hd
        exact h.low _ _ (.inl ⟨by omega, hd⟩)
    · -- one instruction adds one value at most
      rw [hdepth, depthAfter] at hd
      split at hd
      · cases hd
      · obtain ⟨e, he, rfl⟩ := Option.map_eq_some_iff.1 hd
        have := h.low _ _ (.inr ⟨rfl, he⟩)
        have := draft.instr.pushes_le
        have := (hleads e he).1
        omega
  · have := hawaited l s d hs hp hsd
    omega

theorem Grows.push {draft : Draft} (ha : b.Appends b' draft) (hname : b'.name = b.name)
    (hsize : b'.labels.size = b.labels.size) (hkept : ∀ l, l ∉ ls → b'.labels[l]? = b.labels[l]?) :
    Grows ls b D b' (Function.update D b.pc b.depth) where
  reached _ _ := at_push ha.pc
  pc_le := by rw [ha.pc]; exact Nat.le_succ _
  written _ _ := ha.written
  handlers := by simp [ha.handlers]
  locals := by simp [ha.locals]
  regions e he := .inl (ha.handlers ▸ he)
  size := hsize.ge
  kept l s hl hs := by rw [hkept l hl]; exact hs
  bound l s hl hge hs := by
    rw [Array.getElem?_eq_none (by omega)] at hs
    cases hs
  head := ⟨hname, ha.head⟩

theorem apply_eq (h : ∀ d, b.depth = some d → i.pops ≤ d) :
    ∃ m, b.apply i = .ok { b with depth := b.depth.map fun d => d - i.pops + i.pushes, maxDepth := m } := by
  unfold apply
  rcases hd : b.depth with _ | d
  · refine ⟨b.maxDepth, ?_⟩
    cases b
    simp_all
  · refine ⟨max b.maxDepth (d - i.pops + i.pushes), ?_⟩
    have := h d hd
    simp only [if_neg (show ¬ d < i.pops by omega)]
    rfl

/-- The number of open finally bodies after an instruction. -/
def nestingAfter : Instr → Nat → Nat
  | .enterFinally, n => n + 1
  | .endFinally, n => n - 1
  | _, n => n

theorem opening_nestingAfter {n : Nat} (h : i = .endFinally → n ≠ 0) :
    (nestingAfter i n : Int) = n + i.opening := by
  cases i with
  | enterFinally => rfl
  | endFinally =>
    have := h rfl
    simp only [nestingAfter, Instr.opening]
    omega
  | _ => exact (Int.add_zero _).symm

theorem nest_eq (h : i = .endFinally → b.finallyNesting ≠ 0) :
    b.nest i = .ok { b with finallyNesting := nestingAfter i b.finallyNesting } := by
  unfold nest
  split
  · rfl
  · rw [if_neg (h rfl)]
    rfl
  · rw [nestingAfter] <;> assumption

/-- Writing an instruction that is no branch. -/
theorem emit_eq (hb : i.target? = none) (hn : i = .endFinally → b.finallyNesting ≠ 0)
    (hd : ∀ d, b.depth = some d → i.pops ≤ d) :
    ∃ m, b.emit i =
      .ok { b with
        depth := depthAfter i b.depth, maxDepth := m, finallyNesting := nestingAfter i b.finallyNesting
        instrs := b.instrs.push i } := by
  obtain ⟨m, hm⟩ := apply_eq (b := { b with finallyNesting := nestingAfter i b.finallyNesting }) hd
  refine ⟨m, ?_⟩
  unfold emit
  simp only [hb, nest_eq hn, hm, Option.isSome_none, Bool.false_eq_true, if_false, bind, Except.bind, pure,
    Except.pure, depthAfter]

/-! ## Labels -/

/-- The label `l` gets the state `s`; the others stay. -/
structure Relabels (l : Nat) (s : LabelState) (L L' : Array LabelState) : Prop where
  size : L'.size = L.size
  here : L'[l]? = some s
  other : ∀ k, k ≠ l → L'[k]? = L[k]?

theorem relabels_setIfInBounds {l : Nat} {s s' : LabelState} (h : L[l]? = some s) :
    Relabels l s' L (L.setIfInBounds l s') := by
  have hl : l < L.size := by
    by_contra hge
    rw [Array.getElem?_eq_none (by omega)] at h
    cases h
  refine ⟨by simp, by simp [hl], fun k hk => ?_⟩
  rw [Array.getElem?_setIfInBounds_ne (Ne.symm hk)]

theorem Relabels.refl {l : Nat} {s : LabelState} (h : L[l]? = some s) : Relabels l s L L :=
  ⟨rfl, h, fun _ _ => rfl⟩

theorem Relabels.trans {L' L'' : Array LabelState} {l : Nat} {s s' : LabelState} (h : Relabels l s L L')
    (h' : Relabels l s' L' L'') : Relabels l s' L L'' :=
  ⟨h'.size.trans h.size, h'.here, fun k hk => (h'.other k hk).trans (h.other k hk)⟩

variable {l : Nat} {s : LabelState}

theorem labelState_eq (h : b.labels[l]? = some s) : b.labelState l = .ok s := by
  unfold labelState
  rw [h]

theorem merge_eq (h : b.labels[l]? = some s) (hd : ∀ e, s.depth = some e → e = d) :
    ∃ L, b.merge l d = .ok { b with labels := L } ∧ Relabels l { s with depth := some d } b.labels L := by
  unfold merge
  rw [labelState_eq h]
  rcases hs : s.depth with _ | e
  · refine ⟨_, ?_, relabels_setIfInBounds h⟩
    simp only [bind, Except.bind, hs]
    rfl
  · obtain rfl := hd e hs
    refine ⟨b.labels, ?_, ?_⟩
    · simp only [bind, Except.bind, hs, if_true]
      rfl
    · rw [← hs]
      exact .refl h

theorem mergeCurrent_eq (h : b.labels[l]? = some s) (hd : ∀ d e, b.depth = some d → s.depth = some e → e = d) :
    ∃ L, b.mergeCurrent l = .ok { b with labels := L } ∧
      Relabels l { s with depth := b.depth.or s.depth } b.labels L := by
  unfold mergeCurrent
  rcases hb : b.depth with _ | d
  · exact ⟨b.labels, by simp only [← hb], .refl h⟩
  · obtain ⟨L, hL, hr⟩ := merge_eq h fun e he => hd d e hb he
    exact ⟨L, by simp only [← hb]; exact hL, hr⟩

/-- Writing a branch. -/
theorem branch_eq {kind : BranchKind} (h : b.labels[l]? = some s)
    (hops : ∀ d, b.depth = some d → (Instr.branch kind 0).pops ≤ d)
    (hd : ∀ d e, b.depth = some d → s.depth = some e → e + (Instr.branch kind 0).pops = d) :
    ∃ m L fixups, b.branch kind l =
        .ok { b with
          depth := depthAfter (.branch kind 0) b.depth, maxDepth := m, labels := L, fixups
          instrs := b.instrs.push (.branch kind (s.pc.getD unboundTarget)) } ∧
      Relabels l { s with depth := (b.depth.map fun d => d - (Instr.branch kind 0).pops).or s.depth } b.labels L := by
  have hpops : ∀ t, (Instr.branch kind t).pops = (Instr.branch kind 0).pops := fun t => by cases kind <;> rfl
  obtain ⟨m, hm⟩ := apply_eq (b := b) (i := .branch kind (s.pc.getD unboundTarget)) fun d hd' => by
    rw [hpops]
    exact hops d hd'
  obtain ⟨L, hL, hr⟩ := mergeCurrent_eq (s := s)
    (b := { b with
      depth := b.depth.map fun d => d - (Instr.branch kind (s.pc.getD unboundTarget)).pops +
        (Instr.branch kind (s.pc.getD unboundTarget)).pushes
      maxDepth := m }) h fun d e hd' he => by
    obtain ⟨d₀, hd₀, rfl⟩ := Option.map_eq_some_iff.1 hd'
    have := hd d₀ e hd₀ he
    rw [hpops]
    simp only [Instr.pushes]
    omega
  refine ⟨m, L, if s.pc.getD unboundTarget = unboundTarget then b.fixups.push ⟨b.pc, l⟩ else b.fixups, ?_, ?_⟩
  · unfold branch
    rw [labelState_eq h]
    simp only [bind, Except.bind, hm, hL, pure, Except.pure]
    congr 2
    cases kind <;> simp [depthAfter, Instr.endsFlow, Instr.pops, Instr.pushes]
  · simpa only [hpops, Instr.pushes, Nat.add_zero] using hr

/-- Binding a label. -/
theorem mark_eq (h : b.labels[l]? = some s) (hs : s.pc = none)
    (hd : ∀ d e, b.depth = some d → s.depth = some e → e = d) :
    ∃ L, b.mark l = .ok { b with
        labels := L, depth := b.depth.or s.depth, fixups := b.fixups.filter (·.label ≠ l)
        instrs := patch b.instrs (b.fixups.filter (·.label = l)) b.pc } ∧
      Relabels l ⟨some b.pc, b.depth.or s.depth⟩ b.labels L := by
  obtain ⟨L, hL, hr⟩ := mergeCurrent_eq h hd
  refine ⟨L.setIfInBounds l ⟨some b.pc, b.depth.or s.depth⟩, ?_, hr.trans (relabels_setIfInBounds hr.here)⟩
  have hstate : Builder.labelState { b with labels := L } l = .ok { s with depth := b.depth.or s.depth } :=
    labelState_eq hr.here
  unfold mark
  rw [labelState_eq h]
  simp only [bind, Except.bind, hs, hL, hstate, Option.isSome_none, Bool.false_eq_true, if_false, pure, Except.pure]
  rfl

/-- Binding a label at which exceptions enter. -/
theorem markEntry_eq (h : b.labels[l]? = some s) (hs : s.pc = none) (hb : b.depth = none)
    (hd : ∀ e, s.depth = some e → e = d) :
    ∃ L, b.markEntry l d = .ok { b with
        labels := L, depth := some d, fixups := b.fixups.filter (·.label ≠ l)
        instrs := patch b.instrs (b.fixups.filter (·.label = l)) b.pc } ∧
      Relabels l ⟨some b.pc, some d⟩ b.labels L := by
  obtain ⟨L, hL, hr⟩ := merge_eq h hd
  obtain ⟨L', hL', hr'⟩ := mark_eq (b := { b with labels := L }) hr.here hs (by simp [hb])
  have hall : Relabels l ⟨some b.pc, b.depth.or (some d)⟩ b.labels L' := hr.trans hr'
  rw [hb] at hall
  refine ⟨L', ?_, hall⟩
  unfold markEntry
  rw [hL]
  refine hL'.trans ?_
  simp only [hb, Option.none_or]
  rfl

/-! ## Operations and depths -/

/-- An instruction that is no branch is written with the depths of the code. -/
theorem Tracks.emit (h : b.Tracks D) (hb : i.target? = none) (hn : i = .endFinally → b.finallyNesting ≠ 0)
    (hd : ∀ d, b.depth = some d → i.pops ≤ d ∧ (i = .ret → d = 1)) :
    ∃ b' D', b.emit i = .ok b' ∧ b'.Tracks D' ∧ Grows [] b D b' D' ∧ b'.depth = depthAfter i b.depth ∧
      b'.finallyNesting = nestingAfter i b.finallyNesting ∧ b'.pc = b.pc + 1 ∧ b'.handlers = b.handlers := by
  obtain ⟨m, hm⟩ := emit_eq hb hn fun d hd' => (hd d hd').1
  have ha := appends_emit hm
  refine ⟨_, Function.update D b.pc b.depth, hm, ?_, .push ha rfl rfl fun _ _ => rfl, rfl, rfl, ha.pc, rfl⟩
  refine h.push ha (.of_eq rfl) (opening_nestingAfter hn) (fun j hj => ?_) (fun _ _ e => by cases e) rfl
    (fun d hd' => ?_) h.awaited
  · cases hj
    exact hb
  · exact ⟨(hd d hd').1, (hd d hd').2, fun _ _ e => by cases e⟩

/-- A branch has been written to a label, which has the depth `d` now. -/
structure Branched (kind : BranchKind) (l : Nat) (d : Option Nat) (b : Builder) (D : Nat → Option Nat) (b' : Builder)
    (D' : Nat → Option Nat) : Prop where
  tracks : b'.Tracks D'
  grows : Grows [l] b D b' D'
  depth : b'.depth = depthAfter (.branch kind 0) b.depth
  nesting : b'.finallyNesting = b.finallyNesting
  labels : Relabels l ⟨none, d⟩ b.labels b'.labels
  pc : b'.pc = b.pc + 1
  written : b'.Written b.pc (.branch kind l)
  handlers : b'.handlers = b.handlers

/-- A label has been bound here with the depth `d`. -/
structure Marked (l : Nat) (d : Option Nat) (b : Builder) (D : Nat → Option Nat) (b' : Builder) : Prop where
  tracks : b'.Tracks D
  grows : Grows [l] b D b' D
  depth : b'.depth = d
  nesting : b'.finallyNesting = b.finallyNesting
  pc : b'.pc = b.pc
  labels : Relabels l ⟨some b.pc, d⟩ b.labels b'.labels
  handlers : b'.handlers = b.handlers

/-- A branch to a label that is not bound yet is written with the depths of the code. -/
theorem Tracks.branch (h : b.Tracks D) (kind : BranchKind) (hl : b.labels[l]? = some s) (hs : s.pc = none)
    (hops : ∀ d, b.depth = some d → (Instr.branch kind 0).pops ≤ d)
    (hd : ∀ d e, b.depth = some d → s.depth = some e → e + (Instr.branch kind 0).pops = d) :
    ∃ b' D', b.branch kind l = .ok b' ∧
      Branched kind l ((b.depth.map fun d => d - (Instr.branch kind 0).pops).or s.depth) b D b' D' := by
  obtain ⟨m, L, fixups, hm, hr⟩ := branch_eq hl hops hd
  rw [hs] at hr
  have ha := appends_branch hm
  have hlt : l < b.labels.size := (Array.getElem?_eq_some_iff.1 hl).1
  have hfree : b.target? l = none := by rw [target?, hl]; exact hs
  have hhere := ha.here (fun f hf => (h.noted f hf).1) (by rintro i ⟨⟩)
  have hkept : LabelsKept b { b with labels := L } := by
    refine ⟨hr.size, fun k s' hk hp => ?_, fun k s' d hk hkd => ?_⟩
    · by_cases hkl : k = l
      · subst hkl
        simp only [hr.here, Option.some.injEq] at hk
        subst hk
        cases hp
      · simp only [hr.other k hkl] at hk
        exact hk
    · by_cases hkl : k = l
      · subst hkl
        obtain rfl : s = s' := by simpa [hl] using hk
        refine ⟨_, hr.here, ?_⟩
        rcases hbd : b.depth with _ | d₀
        · simpa using hkd
        · have := hd d₀ d hbd hkd
          simp
          omega
      · exact ⟨s', by simp only [hr.other k hkl]; exact hk, hkd⟩
  refine ⟨_, Function.update D b.pc b.depth, hm, ?_, ?_, rfl, rfl, hr, ha.pc, hhere, rfl⟩
  · refine h.push ha ⟨hkept.size, hkept.bound, hkept.depth⟩ (Int.add_zero _).symm (fun _ e => by cases e)
      (by rintro k j ⟨⟩; exact ⟨hlt, hfree⟩) rfl (fun d hd' => ⟨hops d hd', by simp [Draft.instr], ?_⟩)
        fun k s' d hk hp hkd => ?_
    · rintro k j ⟨⟩
      exact ⟨_, hr.here, by simp [hd', Draft.instr, Instr.pushes]⟩
    · by_cases hkl : k = l
      · subst hkl
        obtain rfl := Option.some.inj (hr.here.symm.trans hk)
        rcases hbd : b.depth with _ | d₀ <;> rw [hbd] at hkd
        · exact h.awaited k s d hl hs hkd
        · have := h.low _ _ (.inr ⟨rfl, hbd⟩)
          obtain rfl : d₀ - _ = d := Option.some.inj hkd
          omega
      · exact h.awaited k s' d ((hr.other k hkl).symm.trans hk) hp hkd
  · refine .push ha rfl hr.size fun k hk => hr.other k ?_
    simpa using hk

theorem opening_retarget (t : Nat) (i : Instr) : (i.retarget t).opening = i.opening := by
  cases i <;> rfl

theorem opening_patch (instrs : Array Instr) (fixups : Array Fixup) (t : Nat) :
    (patch instrs fixups t).toList.map Instr.opening = instrs.toList.map Instr.opening := by
  refine List.ext_getElem? fun pc => ?_
  simp only [List.getElem?_map, Array.getElem?_toList, getElem?_patch]
  split
  · simp only [Option.map_map, Function.comp_def, opening_retarget]
  · rfl

/-- A label is bound here, with a depth that forgets nothing: the depths of the code are kept. -/
theorem Tracks.relabel (h : b.Tracks D) (hb : b.Binds b' l) (hl : b.labels[l]? = some s)
    (hd' : b'.depth = b.depth.or b'.depth) (hsd : ∀ e, s.depth = some e → b'.depth = some e)
    (hlow : ∀ e, b'.depth = some e → e ≤ b.pc)
    (hr : Relabels l ⟨some b.pc, b'.depth⟩ b.labels b'.labels) (hn : b'.finallyNesting = b.finallyNesting)
    (hname : b'.name = b.name) : Marked l b'.depth b D b' := by
  have hat : ∀ pc d, b.At D pc d → b'.At D pc d := by
    rintro pc d (⟨hlt, hd⟩ | ⟨rfl, hd⟩)
    · exact .inl ⟨by rw [hb.pc]; exact hlt, hd⟩
    · refine .inr ⟨hb.pc.symm, ?_⟩
      rw [hd'] at ⊢
      simp [hd]
  have hdepth : ∀ (k : Nat) s' d, b.labels[k]? = some s' → s'.depth = some d →
      ∃ s'', b'.labels[k]? = some s'' ∧ s''.depth = some d := by
    intro k s' d hk hkd
    by_cases hkl : k = l
    · subst hkl
      obtain rfl : s = s' := by simpa [hl] using hk
      exact ⟨_, hr.here, hsd d hkd⟩
    · exact ⟨s', by rw [hr.other k hkl]; exact hk, hkd⟩
  refine ⟨⟨hat _ _ h.start, fun pc d hlt hD => ?_, fun k s' p d hk hp hkd => ?_,
    fun e he => hat _ _ (h.handlers e (hb.handlers ▸ he)), fun f hf => ?_, ?_, ?_, fun k s' d hk hp hkd => ?_⟩,
    ⟨hat, hb.pc.ge, fun _ _ => hb.written, by simp [hb.handlers], by simp [hb.locals],
      fun e he => .inl (hb.handlers ▸ he), hr.size.ge, fun k s' hk hks => ?_, fun k s' hk hge hks => ?_,
        hname, hb.head⟩,
    rfl, hn, hb.pc, hr, hb.handlers⟩
  · obtain ⟨draft, hdr, hleads⟩ := h.code pc d (hb.pc ▸ hlt) hD
    exact ⟨draft, hb.written hdr, hleads.mono hat hdepth⟩
  · by_cases hkl : k = l
    · subst hkl
      simp only [hr.here, Option.some.injEq] at hk
      subst hk
      cases hp
      exact .inr ⟨hb.pc.symm, hkd⟩
    · simp only [hr.other k hkl] at hk
      exact hat p d (h.labels k s' p d hk hp hkd)
  · obtain ⟨hf, hne⟩ := hb.mem_fixups.1 hf
    obtain ⟨hlt, hlabel, hfree⟩ := h.noted f hf
    exact ⟨hb.pc ▸ hlt, hr.size ▸ hlabel, (hb.target _ hne).trans hfree⟩
  · rw [hn, h.opened, hb.instrs, opening_patch]
  · rintro pc d (⟨hlt, hd⟩ | ⟨rfl, hd⟩)
    · exact h.low pc d (.inl ⟨hb.pc ▸ hlt, hd⟩)
    · rw [hb.pc]
      exact hlow d hd
  · rw [hb.pc]
    by_cases hkl : k = l
    · subst hkl
      obtain rfl := Option.some.inj (hr.here.symm.trans hk)
      cases hp
    · rw [hr.other k hkl] at hk
      exact h.awaited k s' d hk hp hkd
  · simp only [List.mem_singleton] at hk
    simp only [hr.other k hk]
    exact hks
  · simp only [List.mem_singleton] at hk
    simp only [hr.other k hk] at hks
    rw [Array.getElem?_eq_none hge] at hks
    cases hks

/-- A label is bound with the depths of the code. -/
theorem Tracks.mark (h : b.Tracks D) (hl : b.labels[l]? = some s) (hs : s.pc = none)
    (hd : ∀ d e, b.depth = some d → s.depth = some e → e = d) :
    ∃ b', b.mark l = .ok b' ∧ Marked l (b.depth.or s.depth) b D b' := by
  obtain ⟨L, hL, hr⟩ := mark_eq hl hs hd
  have hsd : ∀ e, s.depth = some e → b.depth.or s.depth = some e := by
    intro e he
    rcases hb : b.depth with _ | d
    · simpa using he
    · simp [hd d e hb he]
  refine ⟨_, hL, h.relabel (binds_mark hL) hl (by cases b.depth <;> rfl) hsd (fun e he => ?_) hr rfl rfl⟩
  rcases Option.or_eq_some_iff.1 he with he | ⟨-, he⟩
  · exact h.low _ _ (.inr ⟨rfl, he⟩)
  · exact h.awaited l s e hl hs he

/-- A label at which exceptions enter is bound with the depths of the code. -/
theorem Tracks.markEntry (h : b.Tracks D) (hl : b.labels[l]? = some s) (hs : s.pc = none)
    (hb : b.depth = none) (hd : ∀ e, s.depth = some e → e = d) (hlow : d ≤ b.pc) :
    ∃ b', b.markEntry l d = .ok b' ∧ Marked l (some d) b D b' := by
  obtain ⟨L, hL, hr⟩ := markEntry_eq hl hs hb hd
  refine ⟨_, hL, h.relabel (binds_markEntry hL) hl (by rw [hb]; rfl) (fun e he => by rw [hd e he]) ?_ hr rfl rfl⟩
  rintro e ⟨⟩
  exact hlow

theorem labels_newLabel_of_some (h : b.labels[l]? = some s) : b.newLabel.2.labels[l]? = some s := by
  have hlt := (Array.getElem?_eq_some_iff.1 h).1
  simp only [newLabel]
  rw [Array.getElem?_push, if_neg (by omega)]
  exact h

theorem Tracks.newLabel (h : b.Tracks D) : b.newLabel.2.Tracks D where
  start := h.start
  code pc d hlt hD := by
    obtain ⟨draft, hdr, hleads⟩ := h.code pc d hlt hD
    exact ⟨draft, (same_newLabel b).written hdr,
      hleads.mono (fun _ _ h => h) fun l s d hs hsd => ⟨s, labels_newLabel_of_some hs, hsd⟩⟩
  labels l s p d hs hp hsd := by
    rw [Builder.newLabel, Array.getElem?_push] at hs
    split at hs
    · cases hs
      cases hp
    · exact h.labels l s p d hs hp hsd
  handlers := h.handlers
  noted f hf := by
    obtain ⟨hlt, hlabel, hfree⟩ := h.noted f hf
    refine ⟨hlt, ?_, ((same_newLabel b).target _).trans hfree⟩
    simp only [Builder.newLabel, Array.size_push]
    omega
  opened := h.opened
  low := h.low
  awaited l s d hs hp hsd := by
    rw [Builder.newLabel, Array.getElem?_push] at hs
    split at hs
    · cases hs
      cases hsd
    · exact h.awaited l s d hs hp hsd

theorem Grows.newLabel : Grows [b.labels.size] b D b.newLabel.2 D where
  reached _ _ h := h
  pc_le := le_rfl
  written _ _ := (same_newLabel b).written
  handlers := List.prefix_rfl
  locals := List.prefix_rfl
  regions _ h := .inl h
  size := by simp [Builder.newLabel]
  kept l s _ hs := labels_newLabel_of_some hs
  bound l s hl hge hs := by
    rw [Builder.newLabel, Array.getElem?_push] at hs
    split at hs
    · simp_all
    · rw [Array.getElem?_eq_none hge] at hs
      cases hs
  head := ⟨rfl, rfl, rfl⟩

theorem labels_newLabel : b.newLabel.2.labels[b.labels.size]? = some {} := by
  simp [newLabel]

theorem Tracks.newLocal (h : b.Tracks D) (ty : Ty) : (b.newLocal ty).2.Tracks D where
  start := h.start
  code pc d hlt hD := by
    obtain ⟨draft, hdr, hleads⟩ := h.code pc d hlt hD
    exact ⟨draft, hdr.of_eq rfl rfl rfl, hleads.mono (fun _ _ h => h) fun l s d hs hsd => ⟨s, hs, hsd⟩⟩
  labels := h.labels
  handlers := h.handlers
  noted := h.noted
  opened := h.opened
  low := h.low
  awaited := h.awaited

theorem Grows.newLocal (ty : Ty) : Grows [] b D (b.newLocal ty).2 D where
  reached _ _ h := h
  pc_le := le_rfl
  written _ _ h := h.of_eq rfl rfl rfl
  handlers := List.prefix_rfl
  locals := by simp [Builder.newLocal]
  regions _ h := .inl h
  size := le_rfl
  kept _ _ _ h := h
  bound l s _ hge hs := by
    rw [Builder.newLocal, Array.getElem?_eq_none hge] at hs
    cases hs
  head := ⟨rfl, rfl, rfl⟩

theorem Tracks.addHandler {e : Handler} (h : b.Tracks D) (he : b.At D e.target e.entryDepth) :
    (b.addHandler e).Tracks D where
  start := h.start
  code pc d hlt hD := by
    obtain ⟨draft, hdr, hleads⟩ := h.code pc d hlt hD
    exact ⟨draft, hdr.of_eq rfl rfl rfl, hleads.mono (fun _ _ h => h) fun l s d hs hsd => ⟨s, hs, hsd⟩⟩
  labels := h.labels
  handlers e' he' := by
    rcases Array.mem_push.1 he' with he' | rfl
    · exact h.handlers e' he'
    · exact he
  noted := h.noted
  opened := h.opened
  low := h.low
  awaited := h.awaited

/-- The handler of a region inside of what has been added. -/
theorem Grows.addHandler {e : Handler} (h : Grows ls b D b' D') (hstart : b.pc ≤ e.start) (hstop : e.stop ≤ b'.pc) :
    Grows ls b D (b'.addHandler e) D' where
  reached := h.reached
  pc_le := h.pc_le
  written pc draft hw := (h.written pc draft hw).of_eq rfl rfl rfl
  handlers := h.handlers.trans (by simp [Builder.addHandler])
  locals := h.locals
  regions e' he' := by
    rcases Array.mem_push.1 he' with he' | rfl
    · exact h.regions e' he'
    · exact .inr ⟨hstart, hstop⟩
  size := h.size
  kept := h.kept
  bound := h.bound
  head := h.head

/-! ## Finished units -/

theorem At.within {pc : Nat} (h : b.At D pc d) (hb : b.depth = none) :
    (if pc < b.pc then D pc else none) = some d := by
  rcases h with ⟨hlt, h⟩ | ⟨-, h⟩
  · rw [if_pos hlt, h]
  · rw [hb] at h
    cases h

/-- Where all labels are bound and control never runs past the end, the depths of the code are a
consistent map for its instructions. -/
theorem Tracks.consistent (h : b.Tracks D) (hb : b.depth = none)
    (hl : ∀ (l : Nat) s, b.labels[l]? = some s → s.pc.isSome) :
    Depths.Consistent b.instrs fun pc => if pc < b.pc then D pc else none := by
  rintro ⟨pc, d⟩ hD
  simp only at hD
  split at hD
  · rename_i hlt
    obtain ⟨draft, hdr, hops, hret, hnext, htarget⟩ := h.code pc d hlt hD
    obtain ⟨i, hi, hpops, hpushes, hends, hisRet⟩ := hdr.code
    refine ⟨i, ⟨hi, hpops ▸ hops, ?_, fun hr => hret (hisRet hr)⟩, fun q hq => ?_⟩
    · -- the stack is no higher than the code is long
      have hle := h.low pc d (.inl ⟨hlt, hD⟩)
      have := i.pushes_le
      unfold Depths.limit
      unfold Builder.pc at hlt
      simp only
      omega
    · unfold Depths.next Depths.successors at hq
      rw [hpops, hpushes, hends] at hq
      rcases List.mem_append.1 hq with hq | hq
      · split at hq
        · cases hq
        · rename_i hf
          obtain rfl := List.mem_singleton.1 hq
          exact (hnext (by simpa using hf)).within hb
      · cases hdr with
        | plain code target =>
          obtain rfl := Option.some.inj (code.symm.trans hi)
          simp [target] at hq
        | @bound kind l t code target settled =>
          obtain rfl := Option.some.inj (code.symm.trans hi)
          obtain ⟨s, hs, hsd⟩ := htarget kind l rfl
          obtain rfl := List.mem_singleton.1 hq
          have hp : s.pc = some t := by rw [target?, hs] at target; exact target
          exact (h.labels l s t _ hs hp hsd).within hb
        | @waits kind l t code target noted alone =>
          obtain ⟨s, hs, -⟩ := htarget kind l rfl
          have hbound := hl l s hs
          rw [target?, hs] at target
          rw [show s.pc = none from target] at hbound
          cases hbound
  · cases hD

/-- Finished code is free of problems if control never runs past its end, all labels are bound and
all finally bodies are closed. -/
theorem Tracks.finish (h : b.Tracks D) (hb : b.depth = none) (hn : b.finallyNesting = 0)
    (hl : ∀ (l : Nat) s, b.labels[l]? = some s → s.pc.isSome) :
    ∃ u ds, b.finish = .ok u ∧ u.depths = .ok ds ∧ u.handlers = b.handlers.toList ∧ u.instrs.size = b.pc := by
  have hlinked : b.fixups.size = 0 := by
    by_contra hne
    obtain ⟨f, hf⟩ := Array.exists_mem_of_size_pos (Nat.pos_of_ne_zero hne)
    obtain ⟨-, hlabel, hfree⟩ := h.noted f hf
    have hs : b.labels[f.label]? = some b.labels[f.label] := by simp [hlabel]
    have hbound := hl _ _ hs
    rw [target?, hs] at hfree
    rw [show (b.labels[f.label]).pc = none from hfree] at hbound
    cases hbound
  have hlow : ∀ e ∈ b.handlers, e.entryDepth < Depths.limit b.instrs := by
    intro e he
    have hat := h.handlers e he
    have hle := h.low _ _ hat
    have hpc : e.target ≤ b.pc := by
      rcases hat with ⟨hlt, -⟩ | ⟨heq, -⟩
      · exact hlt.le
      · exact heq.le
    unfold Depths.limit
    unfold Builder.pc at hpc
    omega
  unfold Builder.finish
  simp only [hlinked, hn, ne_eq, not_true_eq_false, if_false]
  obtain ⟨ds, hds⟩ := CodeUnit.depths_isOk
    (u := { name := b.name, params := b.params, ret := b.ret, layout := b.layout, locals := b.locals,
            instrs := b.instrs, handlers := b.handlers.toList, maxStack := b.maxDepth, native := none })
    (h.consistent hb hl) (h.start.within hb) (fun e he => (h.handlers e (by simpa using he)).within hb)
    fun e he => hlow e (by simpa using he)
  exact ⟨_, ds, rfl, hds, rfl, rfl⟩

end Builder

end ExprCompiler
