/-
Code that is built by any sequence of calls. Each branch of the finished unit leads to where its label
was bound, and the depth that the builder had when it wrote an instruction is the depth that exploring the
unit finds there. The builder's depths can only be wrong about a label that was bound where no depth was
known and is branched to later; where that does not happen, and control comes from nowhere else, exploring
fails only where control runs past the end or returns with other than one value.

The invariants are about what has been built so far: the book of depths at which the drafts were written
(`Charted`), and the calls that wrote the branches and bound the labels (`Linked`). A branch that was written
before its label was bound has waited for it among the fixups, which `Written` accounts for.
-/
import ExprCompiler.Proofs.Code.Builder
import ExprCompiler.Proofs.Code.Edits
import ExprCompiler.Proofs.Code.Reach

namespace ExprCompiler

/-- The depth that a draft written at the depth `d` leaves. -/
def Draft.leaves (draft : Draft) (d : Nat) : Nat :=
  d - draft.instr.pops + draft.instr.pushes

namespace Builder

/-! ## Calls -/

/-- A call by which code is built. -/
inductive Call
  | newLabel
  | newLocal (ty : Ty)
  | emit (instr : Instr)
  | branch (kind : BranchKind) (label : Nat)
  | mark (label : Nat)
  | markEntry (label depth : Nat)
  | labelPc (label : Nat)
  | addHandler (e : Handler)

/-- The builder after a call. -/
def call (b : Builder) : Call → Except Defect Builder
  | .newLabel => .ok b.newLabel.2
  | .newLocal ty => .ok (b.newLocal ty).2
  | .emit instr => b.emit instr
  | .branch kind label => b.branch kind label
  | .mark label => b.mark label
  | .markEntry label depth => b.markEntry label depth
  | .labelPc label => (b.labelPc label).map fun _ => b
  | .addHandler e => .ok (b.addHandler e)

/-- The builder after calls. -/
def calls (b : Builder) (cs : List Call) : Except Defect Builder :=
  cs.foldlM call b

/-- Among the calls `cs`, the call `c` finds the builder in the state `now`. -/
def Meets (b : Builder) (cs : List Call) (c : Call) (now : Builder) : Prop :=
  ∃ before after, cs = before ++ c :: after ∧ b.calls before = .ok now

/-- Among the calls `cs`, one binds the label `l` and finds the builder in the state `now`. -/
def Bound (b : Builder) (cs : List Call) (l : Nat) (now : Builder) : Prop :=
  b.Meets cs (.mark l) now ∨ ∃ d, b.Meets cs (.markEntry l d) now

/-- The call writes an instruction. -/
def Call.Writes : Call → Prop
  | .emit _ | .branch _ _ => True
  | _ => False

/-- Code of which nothing is written. -/
structure IsNew (b : Builder) : Prop where
  instrs : b.instrs = #[]
  fixups : b.fixups = #[]
  labels : b.labels = #[]
  handlers : b.handlers = #[]
  depth : b.depth = some 0

variable {b₀ b b' : Builder} {cs : List Call} {c : Call} {l : Nat} {draft : Draft} {i : Instr} {pc : Nat}

theorem calls_snoc (h : b₀.calls cs = .ok b) : b₀.calls (cs ++ [c]) = b.call c := by
  unfold calls at h ⊢
  rw [List.foldlM_append, h]
  show List.foldlM call b [c] = _
  rw [List.foldlM_cons]
  cases b.call c <;> rfl

/-- What one more call adds to the calls that were made. -/
theorem meets_snoc (h : b₀.calls cs = .ok b) {c' : Call} {now : Builder} :
    b₀.Meets (cs ++ [c]) c' now ↔ b₀.Meets cs c' now ∨ (c' = c ∧ now = b) := by
  constructor
  · rintro ⟨before, after, hcs, hnow⟩
    rcases List.eq_nil_or_concat after with rfl | ⟨after, last, rfl⟩
    · obtain ⟨rfl, rfl⟩ : before = cs ∧ c' = c := by
        have := List.append_inj' hcs rfl
        exact ⟨this.1.symm, (List.singleton_inj.1 this.2).symm⟩
      exact .inr ⟨rfl, Except.ok.inj (hnow.symm.trans h)⟩
    · have hsplit : cs ++ [c] = (before ++ c' :: after) ++ [last] := by rw [hcs]; simp
      exact .inl ⟨before, after, (List.append_inj' hsplit rfl).1, hnow⟩
  · rintro (⟨before, after, rfl, hnow⟩ | ⟨rfl, rfl⟩)
    · exact ⟨before, after ++ [c], by simp, hnow⟩
    · exact ⟨cs, [], rfl, h⟩

theorem bound_snoc (h : b₀.calls cs = .ok b) {now : Builder} :
    b₀.Bound (cs ++ [c]) l now ↔ b₀.Bound cs l now ∨ ((c = .mark l ∨ ∃ d, c = .markEntry l d) ∧ now = b) := by
  unfold Bound
  simp only [meets_snoc h]
  grind

/-- A property of the calls made so far and the builder after them holds after all calls if it holds of new
code and every call keeps it. -/
theorem calls_induction {P : List Call → Builder → Prop} (hnew : P [] b₀)
    (hcall : ∀ cs c b b', b₀.calls cs = .ok b → P cs b → b.call c = .ok b' → P (cs ++ [c]) b') :
    ∀ cs b, b₀.calls cs = .ok b → P cs b := by
  intro cs
  induction cs using List.reverseRecOn with
  | nil =>
    intro b h
    cases h
    exact hnew
  | append_singleton cs c ih =>
    intro b h
    rcases hcs : b₀.calls cs with d | b₁
    · rw [calls, List.foldlM_append, show List.foldlM call b₀ cs = .error d from hcs] at h
      cases h
    · rw [calls_snoc hcs] at h
      exact hcall cs c b₁ b hcs (ih b₁ hcs) h

/-! ## Branches and labels -/

/-- The branches written so far are those of the calls, and labels are bound where the calls bound them. -/
structure Linked (b₀ : Builder) (cs : List Call) (b : Builder) : Prop where
  branches : ∀ kind l now, b₀.Meets cs (.branch kind l) now → b.Written now.pc (.branch kind l)
  called : ∀ (pc : Nat) kind t, b.instrs[pc]? = some (.branch kind t) →
    ∃ l now, b₀.Meets cs (.branch kind l) now ∧ now.pc = pc
  targets : ∀ l t, b.target? l = some t ↔ ∃ now, b₀.Bound cs l now ∧ now.pc = t
  noted : ∀ f ∈ b.fixups, f.pc < b.pc

theorem Linked.new (h : b₀.IsNew) : Linked b₀ [] b₀ := by
  have hnone : ∀ c now, ¬ b₀.Meets [] c now := by
    rintro c now ⟨before, after, hcs, -⟩
    simp at hcs
  refine ⟨fun kind l now hnow => absurd hnow (hnone _ now), fun pc kind t hi => ?_, fun l t => ?_, fun f hf => ?_⟩
  · simp [h.instrs] at hi
  · simp [target?, h.labels, Bound, hnone]
  · simp [h.fixups] at hf

/-- A call that leaves code and labels as they are. -/
theorem Linked.same (h : Linked b₀ cs b) (hcs : b₀.calls cs = .ok b) (hi : b'.instrs = b.instrs)
    (hf : b'.fixups = b.fixups) (ht : b'.target? = b.target?) (hbranch : ∀ kind l, c ≠ .branch kind l)
    (hmark : ∀ l, c ≠ .mark l) (hentry : ∀ l d, c ≠ .markEntry l d) : Linked b₀ (cs ++ [c]) b' := by
  refine ⟨fun kind l now hnow => ?_, fun pc kind t hcode => ?_, fun l t => ?_, fun f hmem => ?_⟩
  · rcases (meets_snoc hcs).1 hnow with hnow | ⟨hc, -⟩
    · exact (h.branches kind l now hnow).of_eq hi hf ht
    · exact absurd hc.symm (hbranch kind l)
  · obtain ⟨l, now, hnow, hpc⟩ := h.called pc kind t (hi ▸ hcode)
    exact ⟨l, now, (meets_snoc hcs).2 (.inl hnow), hpc⟩
  · simp only [ht, h.targets, bound_snoc hcs, hmark l, hentry l, exists_false, or_false, false_and]
  · rw [pc, hi]
    exact h.noted f (hf ▸ hmem)

/-- A call that writes one draft. -/
theorem Linked.append (h : Linked b₀ cs b) (hcs : b₀.calls cs = .ok b) (ha : b.Appends b' draft)
    (hbranch : ∀ kind l, c = .branch kind l ↔ draft = .branch kind l)
    (hplain : ∀ i, draft = .plain i → i.target? = none)
    (hmark : ∀ l, c ≠ .mark l) (hentry : ∀ l d, c ≠ .markEntry l d) : Linked b₀ (cs ++ [c]) b' := by
  refine ⟨fun kind l now hnow => ?_, fun pc kind t hi => ?_, fun l t => ?_, ha.noted h.noted⟩
  · rcases (meets_snoc hcs).1 hnow with hnow | ⟨hc, rfl⟩
    · exact ha.written (h.branches kind l now hnow)
    · obtain rfl := (hbranch kind l).1 hc.symm
      exact ha.here h.noted hplain
  · rw [ha.getElem?] at hi
    split at hi
    · rename_i hcur
      cases draft with
      | plain i =>
        obtain rfl := Option.some.inj hi
        cases hplain _ rfl
      | branch kind' l =>
        cases hi
        exact ⟨l, b, (meets_snoc hcs).2 (.inr ⟨((hbranch kind l).2 rfl).symm, rfl⟩), hcur.symm⟩
    · obtain ⟨l, now, hnow, hpc⟩ := h.called pc kind t hi
      exact ⟨l, now, (meets_snoc hcs).2 (.inl hnow), hpc⟩
  · simp only [ha.target, h.targets, bound_snoc hcs, hmark l, hentry l, exists_false, or_false, false_and]

/-- A call that binds a label: the branches that wait for it are patched. -/
theorem Linked.bind (h : Linked b₀ cs b) (hcs : b₀.calls cs = .ok b) (hb : b.Binds b' l)
    (hc : c = .mark l ∨ ∃ d, c = .markEntry l d) : Linked b₀ (cs ++ [c]) b' := by
  have hbranch : ∀ kind k, Call.branch kind k ≠ c := by
    rcases hc with rfl | ⟨d, rfl⟩ <;> simp
  refine ⟨fun kind k now hnow => ?_, fun pc kind t hi => ?_, fun k t => ?_, fun f hf => ?_⟩
  · rcases (meets_snoc hcs).1 hnow with hnow | ⟨hc, -⟩
    · exact hb.written (h.branches kind k now hnow)
    · exact absurd hc (hbranch kind k)
  · obtain ⟨i, hi, hsame⟩ := hb.instr hi
    obtain ⟨t', rfl⟩ := hsame.branch kind t rfl
    obtain ⟨l, now, hnow, hpc⟩ := h.called pc kind t' hi
    exact ⟨l, now, (meets_snoc hcs).2 (.inl hnow), hpc⟩
  · simp only [bound_snoc hcs]
    by_cases hk : k = l
    · subst hk
      rw [hb.bound.2]
      constructor
      · rintro ⟨⟩
        exact ⟨b, .inr ⟨hc, rfl⟩, rfl⟩
      · rintro ⟨now, hnow | ⟨-, rfl⟩, rfl⟩
        · have hold := (h.targets k now.pc).2 ⟨now, hnow, rfl⟩
          rw [hb.bound.1] at hold
          cases hold
        · rfl
    · have hother : ¬ (c = .mark k ∨ ∃ d, c = .markEntry k d) := by
        rcases hc with rfl | ⟨d, rfl⟩ <;> simp [Ne.symm hk]
      simp only [hb.target k hk, h.targets, hother, false_and, or_false]
  · rw [hb.pc]
    exact h.noted f (hb.mem_fixups.1 hf).1

theorem linked_calls (h₀ : b₀.IsNew) : ∀ cs b, b₀.calls cs = .ok b → Linked b₀ cs b := by
  refine calls_induction (.new h₀) fun cs c b b' hcs h hc => ?_
  cases c with
  | newLabel =>
    cases hc
    exact h.same hcs rfl rfl (funext (same_newLabel b).target) (by simp) (by simp) (by simp)
  | newLocal ty | addHandler e =>
    cases hc
    exact h.same hcs rfl rfl rfl (by simp) (by simp) (by simp)
  | emit i =>
    refine h.append hcs (appends_emit hc) (by simp) ?_ (by simp) (by simp)
    rintro j ⟨⟩
    exact target?_of_emit hc
  | branch kind l => exact h.append hcs (appends_branch hc) (by simp) (by simp) (by simp) (by simp)
  | mark l => exact h.bind hcs (binds_mark hc) (.inl rfl)
  | markEntry l d => exact h.bind hcs (binds_markEntry hc) (.inr ⟨d, rfl⟩)
  | labelPc l =>
    simp only [call] at hc
    cases hp : b.labelPc l with
    | error d => rw [hp] at hc; cases hc
    | ok p =>
      rw [hp] at hc
      cases hc
      exact h.same hcs rfl rfl rfl (by simp) (by simp) (by simp)

/-! ## Depths of the calls -/

theorem of_apply (h : b.apply i = .ok b') :
    (∀ d, b.depth = some d → i.pops ≤ d) ∧ b'.depth = (b.depth.map fun d => d - i.pops + i.pushes) ∧
      b'.labels = b.labels := by
  unfold apply at h
  split at h
  · rename_i hd
    cases h
    simp [hd]
  · rename_i d hd
    split at h
    · cases h
    · rename_i hpops
      cases h
      refine ⟨?_, by simp [hd], rfl⟩
      rintro d' hd'
      obtain rfl := Option.some.inj (hd.symm.trans hd')
      omega

theorem merge_inv {d : Nat} (h : b.merge l d = .ok b') :
    b'.depth = b.depth ∧ ∃ s, b.labels[l]? = some s ∧ (∀ e, s.depth = some e → e = d) ∧
      Relabels l { s with depth := some d } b.labels b'.labels := by
  obtain ⟨s, hs, h'⟩ := bind_ok_inv h
  have hl := labelState_inv hs
  have hagree : ∀ e, s.depth = some e → e = d := by
    intro e he
    by_contra hne
    simp only [he, hne, if_false] at h'
    cases h'
  obtain ⟨L, hL, hr⟩ := merge_eq hl hagree
  obtain rfl := Except.ok.inj (hL.symm.trans h)
  exact ⟨rfl, s, hl, hagree, hr⟩

theorem mergeCurrent_inv {s : LabelState} (h : b.mergeCurrent l = .ok b') (hs : b.labels[l]? = some s) :
    b'.depth = b.depth ∧ (∀ d e, b.depth = some d → s.depth = some e → e = d) ∧
      Relabels l { s with depth := b.depth.or s.depth } b.labels b'.labels := by
  unfold mergeCurrent at h
  split at h
  · rename_i d hd
    obtain ⟨hdepth, s', hs', hagree, hr⟩ := merge_inv h
    obtain rfl := Option.some.inj (hs.symm.trans hs')
    refine ⟨hdepth, ?_, by simpa [hd] using hr⟩
    intro d' e hd' he
    obtain rfl := Option.some.inj (hd.symm.trans hd')
    exact hagree e he
  · rename_i hd
    cases h
    exact ⟨rfl, by simp [hd], by simpa [hd] using Relabels.refl hs⟩

theorem emit_inv (h : b.emit i = .ok b') :
    (∀ d, b.depth = some d → i.pops ≤ d) ∧ b'.depth = depthAfter i b.depth ∧ b'.labels = b.labels := by
  unfold emit at h
  dsimp only at h
  split at h
  · cases h
  obtain ⟨b₁, h₁, h⟩ := bind_ok_inv h
  obtain ⟨b₂, h₂, h⟩ := bind_ok_inv h
  have hnest : b₁.depth = b.depth ∧ b₁.labels = b.labels := by
    unfold nest at h₁
    split at h₁
    · cases h₁
      exact ⟨rfl, rfl⟩
    · split at h₁
      · cases h₁
      · cases h₁
        exact ⟨rfl, rfl⟩
    · cases h₁
      exact ⟨rfl, rfl⟩
  obtain ⟨hpops, hdepth, hlabels⟩ := of_apply h₂
  cases h
  rw [hnest.1] at hpops hdepth
  exact ⟨hpops, by simp only [depthAfter, hdepth], hlabels.trans hnest.2⟩

/-- What a branch does to the depths: the label must have the depth that the branch leaves. -/
theorem branch_inv {kind : BranchKind} (h : b.branch kind l = .ok b') :
    ∃ s, b.labels[l]? = some s ∧ (∀ d, b.depth = some d → (Instr.branch kind 0).pops ≤ d) ∧
      (∀ d e, b.depth = some d → s.depth = some e → e = d - (Instr.branch kind 0).pops) ∧
      b'.depth = depthAfter (.branch kind 0) b.depth ∧
      Relabels l { s with depth := (b.depth.map fun d => d - (Instr.branch kind 0).pops).or s.depth } b.labels
        b'.labels := by
  obtain ⟨s, hs, h⟩ := bind_ok_inv h
  obtain ⟨b₁, h₁, h⟩ := bind_ok_inv h
  obtain ⟨b₂, h₂, h⟩ := bind_ok_inv h
  have hl := labelState_inv hs
  obtain ⟨hpops, hdepth, hlabels⟩ := of_apply h₁
  obtain ⟨hdepth₂, hagree, hr⟩ := mergeCurrent_inv h₂ (hlabels ▸ hl)
  have hkind : ∀ t, (Instr.branch kind t).pops = (Instr.branch kind 0).pops := fun t => by cases kind <;> rfl
  simp only [hkind, Instr.pushes, Nat.add_zero] at hpops hdepth
  rw [hdepth] at hagree hr hdepth₂
  rw [hlabels] at hr
  cases h
  refine ⟨s, hl, hpops, fun d e hd he => hagree _ e (by rw [hd]; rfl) he, ?_, hr⟩
  simp only [depthAfter, hdepth₂, Instr.pushes, Nat.add_zero]
  cases kind <;> simp [Instr.endsFlow]

theorem mark_inv (h : b.mark l = .ok b') :
    ∃ s, b.labels[l]? = some s ∧ s.pc = none ∧ (∀ d e, b.depth = some d → s.depth = some e → e = d) ∧
      b'.depth = b.depth.or s.depth ∧ Relabels l ⟨some b.pc, b.depth.or s.depth⟩ b.labels b'.labels := by
  obtain ⟨s, hs, h'⟩ := bind_ok_inv h
  have hl := labelState_inv hs
  dsimp only at h'
  split at h'
  · cases h'
  rename_i hfree
  obtain ⟨b₁, h₁, -⟩ := bind_ok_inv h'
  obtain ⟨-, hagree, -⟩ := mergeCurrent_inv h₁ hl
  obtain ⟨L, hL, hr⟩ := mark_eq hl (Option.not_isSome_iff_eq_none.1 hfree) hagree
  obtain rfl := Except.ok.inj (hL.symm.trans h)
  exact ⟨s, hl, Option.not_isSome_iff_eq_none.1 hfree, hagree, rfl, hr⟩

/-! ## The book of depths -/

/-- Control is known to come to a position with a depth: it is the start, or a draft written before it
leads there with the depth that the draft leaves. -/
def Origin (b : Builder) (D : Nat → Option Nat) (pc d : Nat) : Prop :=
  (pc = 0 ∧ d = 0) ∨ ∃ q e draft, q < pc ∧ D q = some e ∧ b.Written q draft ∧ d = draft.leaves e ∧
    (draft.instr.endsFlow = false ∧ pc = q + 1 ∨ ∃ kind l, draft = .branch kind l ∧ b.target? l = some pc)

/-- The map `D` has the depths at which the drafts were written. Control comes from each of them with the
depth that it leaves, and comes to none of them in another way. -/
structure Charted (b : Builder) (D : Nat → Option Nat) : Prop where
  start : b.At D 0 0
  operands : ∀ (pc : Nat) d i, D pc = some d → b.instrs[pc]? = some i → i.pops ≤ d
  next : ∀ (pc : Nat) d i, D pc = some d → b.instrs[pc]? = some i → i.endsFlow = false →
    b.At D (pc + 1) (d - i.pops + i.pushes)
  jump : ∀ (pc : Nat) d kind t, D pc = some d → b.instrs[pc]? = some (.branch kind t) →
    ∃ l s, b.Written pc (.branch kind l) ∧ b.labels[l]? = some s ∧ s.depth = some ((Draft.branch kind l).leaves d)
  labels : ∀ (l : Nat) s p d, b.labels[l]? = some s → s.pc = some p → s.depth = some d → b.At D p d
  origin : ∀ pc d, b.At D pc d → b.Origin D pc d
  pending : ∀ (l : Nat) s d, b.labels[l]? = some s → s.pc = none → s.depth = some d →
    ∃ (q e : Nat) (kind : BranchKind), D q = some e ∧ b.Written q (.branch kind l) ∧ d = (Draft.branch kind l).leaves e
  noted : ∀ f ∈ b.fixups, f.pc < b.pc

variable {D D' : Nat → Option Nat}

theorem Origin.mono {d : Nat} (h : b.Origin D pc d) (hD : ∀ q < b.pc, D' q = D q)
    (hwritten : ∀ q draft, b.Written q draft → b'.Written q draft)
    (htarget : ∀ l t, b.target? l = some t → b'.target? l = some t) : b'.Origin D' pc d := by
  rcases h with h | ⟨q, e, draft, hq, he, hdraft, hd, hgoes⟩
  · exact .inl h
  · refine .inr ⟨q, e, draft, hq, (hD q hdraft.lt).trans he, hwritten q draft hdraft, hd, ?_⟩
    rcases hgoes with h | ⟨kind, l, hbr, ht⟩
    · exact .inl h
    · exact .inr ⟨kind, l, hbr, htarget l pc ht⟩

theorem Charted.new (h : b₀.IsNew) : b₀.Charted fun _ => none := by
  have hpc : b₀.pc = 0 := by simp [Builder.pc, h.instrs]
  refine ⟨.inr ⟨hpc.symm, h.depth⟩, by simp, by simp, by simp, ?_, ?_, ?_, by simp [h.fixups]⟩
  · intro l s p d hs
    simp [h.labels] at hs
  · rintro pc d (⟨-, hd⟩ | ⟨rfl, hd⟩)
    · cases hd
    · rw [h.depth] at hd
      exact .inl ⟨hpc, (Option.some.inj hd).symm⟩
  · intro l s d hs
    simp [h.labels] at hs

/-- A draft is written at the builder's depth. A label that is bound stays as it is; one that is not bound
may get the depth that a branch to it leaves. -/
theorem Charted.append (h : b.Charted D) (ha : b.Appends b' draft)
    (hplain : ∀ i, draft = .plain i → i.target? = none)
    (hops : ∀ d, b.depth = some d → draft.instr.pops ≤ d)
    (hdepth : b'.depth = depthAfter draft.instr b.depth) (hl : LabelsKept b b')
    (hjump : ∀ d kind l, b.depth = some d → draft = .branch kind l →
      ∃ s, b'.labels[l]? = some s ∧ s.depth = some (draft.leaves d))
    (hnew : ∀ (l : Nat) s', b'.labels[l]? = some s' → b.labels[l]? = some s' ∨ s'.pc = none ∧
      ∃ kind d, draft = .branch kind l ∧ b.depth = some d ∧ s'.depth = some (draft.leaves d)) :
    b'.Charted (Function.update D b.pc b.depth) := by
  have hpc : b'.pc = b.pc + 1 := ha.pc
  have hhere : b'.Written b.pc draft := ha.here h.noted hplain
  have hat : ∀ pc d, b.At D pc d → b'.At (Function.update D b.pc b.depth) pc d := fun _ _ => at_push hpc
  have hbelow : ∀ q < b.pc, Function.update D b.pc b.depth q = D q :=
    fun q hq => Function.update_of_ne (by omega) ..
  have horigin : ∀ pc d, b.At D pc d → b'.Origin (Function.update D b.pc b.depth) pc d := fun pc d hd =>
    (h.origin pc d hd).mono hbelow (fun _ _ => ha.written) fun l t ht => (ha.target l).trans ht
  -- the instruction at a position is that of the draft, or it was there before
  have hcases : ∀ pc d i, Function.update D b.pc b.depth pc = some d → b'.instrs[pc]? = some i →
      (pc = b.pc ∧ b.depth = some d ∧ i.pops = draft.instr.pops ∧ i.pushes = draft.instr.pushes ∧
        i.endsFlow = draft.instr.endsFlow ∧ i = b.link draft) ∨ (D pc = some d ∧ b.instrs[pc]? = some i) := by
    intro pc d i hD hi
    by_cases hcur : pc = b.pc
    · subst hcur
      obtain ⟨j, hj, hpops, hpushes, hends, -⟩ := hhere.code
      obtain rfl := Option.some.inj (hj.symm.trans hi)
      rw [ha.getElem?, if_pos rfl] at hi
      rw [Function.update_self] at hD
      exact .inl ⟨rfl, hD, hpops, hpushes, hends, (Option.some.inj hi).symm⟩
    · rw [ha.getElem?, if_neg hcur] at hi
      rw [Function.update_of_ne hcur] at hD
      exact .inr ⟨hD, hi⟩
  refine ⟨hat _ _ h.start, fun pc d i hD hi => ?_, fun pc d i hD hi hf => ?_, fun pc d kind t hD hi => ?_,
    fun l s p d hs hp hsd => ?_, fun pc d hd => ?_, fun l s d hs hp hsd => ?_, ha.noted h.noted⟩
  · rcases hcases pc d i hD hi with ⟨rfl, hd, hpops, -⟩ | ⟨hD, hi⟩
    · exact hpops ▸ hops d hd
    · exact h.operands pc d i hD hi
  · rcases hcases pc d i hD hi with ⟨rfl, hd, hpops, hpushes, hends, -⟩ | ⟨hD, hi⟩
    · refine .inr ⟨hpc.symm, ?_⟩
      rw [hdepth, depthAfter, ← hends, hf, hd, hpops, hpushes]
      rfl
    · exact hat _ _ (h.next pc d i hD hi hf)
  · rcases hcases pc d _ hD hi with ⟨rfl, hd, -, -, -, hlink⟩ | ⟨hD, hi⟩
    · cases draft with
      | plain i =>
        obtain rfl : Instr.branch kind t = i := hlink
        cases hplain _ rfl
      | branch kind' l =>
        cases hlink
        obtain ⟨s, hs, hsd⟩ := hjump d kind l hd rfl
        exact ⟨l, s, hhere, hs, hsd⟩
    · obtain ⟨l, s, hw, hs, hsd⟩ := h.jump pc d kind t hD hi
      obtain ⟨s', hs', hsd'⟩ := hl.depth l s _ hs hsd
      exact ⟨l, s', ha.written hw, hs', hsd'⟩
  · exact hat p d (h.labels l s p d (hl.bound l s hs (by simp [hp])) hp hsd)
  · rcases hd with ⟨hlt, hd⟩ | ⟨rfl, hd⟩
    · by_cases hcur : pc = b.pc
      · subst hcur
        rw [Function.update_self] at hd
        exact horigin _ d (.inr ⟨rfl, hd⟩)
      · rw [Function.update_of_ne hcur] at hd
        exact horigin _ d (.inl ⟨by omega, hd⟩)
    · -- the next position is reached from the draft just written
      rw [hdepth, depthAfter] at hd
      split at hd
      · cases hd
      · rename_i hf
        obtain ⟨e, he, rfl⟩ := Option.map_eq_some_iff.1 hd
        refine .inr ⟨b.pc, e, draft, by omega, by rw [Function.update_self, he], hhere, rfl, ?_⟩
        exact .inl ⟨by simpa using hf, hpc⟩
  · rcases hnew l s hs with hs | ⟨-, kind, e, rfl, he, hsd'⟩
    · obtain ⟨q, e, kind, hq, hw, hd⟩ := h.pending l s d hs hp hsd
      exact ⟨q, e, kind, (hbelow q hw.lt).trans hq, ha.written hw, hd⟩
    · refine ⟨b.pc, e, kind, by rw [Function.update_self, he], hhere, ?_⟩
      exact Option.some.inj (hsd.symm.trans hsd')

/-- A label is bound. Where control does not come from the draft before, the depth is that of the branches
to the label. -/
theorem Charted.bind (h : b.Charted D) {s : LabelState} (hb : b.Binds b' l) (hs : b.labels[l]? = some s)
    (hfree : s.pc = none) (hagree : ∀ d e, b.depth = some d → s.depth = some e → e = d)
    (hdepth : b'.depth = b.depth.or s.depth) (hr : Relabels l ⟨some b.pc, b.depth.or s.depth⟩ b.labels b'.labels) :
    b'.Charted D := by
  have hpc : b'.pc = b.pc := hb.pc
  have hat : ∀ pc d, b.At D pc d → b'.At D pc d := by
    rintro pc d (⟨hlt, hd⟩ | ⟨rfl, hd⟩)
    · exact .inl ⟨by omega, hd⟩
    · exact .inr ⟨hpc.symm, by rw [hdepth, hd]; rfl⟩
  -- a label may get a depth when it is bound, but never another one
  have hkept : ∀ (k : Nat) s' d, b.labels[k]? = some s' → s'.depth = some d →
      ∃ s'', b'.labels[k]? = some s'' ∧ s''.depth = some d := by
    intro k s' d hk hkd
    by_cases hkl : k = l
    · subst hkl
      obtain rfl := Option.some.inj (hs.symm.trans hk)
      refine ⟨_, hr.here, ?_⟩
      rcases hd : b.depth with _ | d₀
      · exact hkd
      · rw [hagree d₀ d hd hkd]
        rfl
    · exact ⟨s', by rw [hr.other k hkl]; exact hk, hkd⟩
  have htarget : ∀ k t, b.target? k = some t → b'.target? k = some t := by
    intro k t ht
    by_cases hkl : k = l
    · subst hkl
      rw [hb.bound.1] at ht
      cases ht
    · rw [hb.target k hkl]
      exact ht
  refine ⟨hat _ _ h.start, fun pc d i hD hi => ?_, fun pc d i hD hi hf => ?_, fun pc d kind t hD hi => ?_,
    fun k s' p d hk hp hkd => ?_, fun pc d hd => ?_, fun k s' d hk hp hkd => ?_, fun f hf => ?_⟩
  · obtain ⟨j, hj, hsame⟩ := hb.instr hi
    exact hsame.pops ▸ h.operands pc d j hD hj
  · obtain ⟨j, hj, hsame⟩ := hb.instr hi
    rw [hsame.pops, hsame.pushes]
    exact hat _ _ (h.next pc d j hD hj (hsame.endsFlow ▸ hf))
  · obtain ⟨j, hj, hsame⟩ := hb.instr hi
    obtain ⟨t', rfl⟩ := hsame.branch kind t rfl
    obtain ⟨k, s', hw, hs', hsd⟩ := h.jump pc d kind t' hD hj
    obtain ⟨s'', hs'', hsd'⟩ := hkept k s' _ hs' hsd
    exact ⟨k, s'', hb.written hw, hs'', hsd'⟩
  · by_cases hkl : k = l
    · subst hkl
      obtain rfl := Option.some.inj (hr.here.symm.trans hk)
      obtain rfl := Option.some.inj hp
      exact .inr ⟨hpc.symm, hdepth.trans hkd⟩
    · rw [hr.other k hkl] at hk
      exact hat p d (h.labels k s' p d hk hp hkd)
  · have hkeep : b.At D pc d → b'.Origin D pc d := fun hd =>
      (h.origin pc d hd).mono (fun _ _ => rfl) (fun _ _ => hb.written) htarget
    rcases hd with ⟨hlt, hd⟩ | ⟨rfl, hd⟩
    · exact hkeep (.inl ⟨by omega, hd⟩)
    · rcases hcur : b.depth with _ | d₀
      · -- control comes only from the branches to the label
        rw [hdepth, hcur] at hd
        obtain ⟨q, e, kind, hq, hw, rfl⟩ := h.pending l s d hs hfree hd
        refine .inr ⟨q, e, _, hpc ▸ hw.lt, hq, hb.written hw, rfl, .inr ⟨kind, l, rfl, ?_⟩⟩
        rw [hb.bound.2, hpc]
      · rw [hdepth, hcur] at hd
        exact hkeep (.inr ⟨hpc, hcur.trans hd⟩)
  · by_cases hkl : k = l
    · subst hkl
      obtain rfl := Option.some.inj (hr.here.symm.trans hk)
      cases hp
    · rw [hr.other k hkl] at hk
      obtain ⟨q, e, kind, hq, hw, hd⟩ := h.pending k s' d hk hp hkd
      exact ⟨q, e, kind, hq, hb.written hw, hd⟩
  · rw [hpc]
    exact h.noted f (hb.mem_fixups.1 hf).1

/-- A change that leaves code and depth as they are, and what is known about labels. -/
theorem Charted.same (h : b.Charted D) (hi : b'.instrs = b.instrs) (hf : b'.fixups = b.fixups)
    (ht : b'.target? = b.target?) (hdepth : b'.depth = b.depth)
    (hkept : ∀ (l : Nat) s, b.labels[l]? = some s → b'.labels[l]? = some s)
    (hnew : ∀ (l : Nat) s, b'.labels[l]? = some s → b.labels[l]? = some s ∨ s = {}) : b'.Charted D := by
  have hpc : b'.pc = b.pc := by rw [Builder.pc, hi]; rfl
  have hat : ∀ pc d, b.At D pc d ↔ b'.At D pc d := by
    intro pc d
    unfold At
    rw [hpc, hdepth]
  have hwritten : ∀ q draft, b.Written q draft → b'.Written q draft := fun _ _ hw => hw.of_eq hi hf ht
  refine ⟨(hat _ _).1 h.start, hi ▸ h.operands,
    fun pc d i hD hcode hends => (hat _ _).1 (h.next pc d i hD (hi ▸ hcode) hends), fun pc d kind t hD hcode => ?_,
    fun k s p d hk hp hkd => ?_, fun pc d hat' => ?_, fun k s d hk hp hkd => ?_, fun f hmem => ?_⟩
  · obtain ⟨l, s, hw, hs, hsd⟩ := h.jump pc d kind t hD (hi ▸ hcode)
    exact ⟨l, s, hwritten _ _ hw, hkept l s hs, hsd⟩
  · rcases hnew k s hk with hk | rfl
    · exact (hat _ _).1 (h.labels k s p d hk hp hkd)
    · cases hp
  · exact (h.origin pc d ((hat _ _).2 hat')).mono (fun _ _ => rfl) hwritten fun l t => by rw [ht]; exact id
  · rcases hnew k s hk with hk | rfl
    · obtain ⟨q, e, kind, hq, hw, hd⟩ := h.pending k s d hk hp hkd
      exact ⟨q, e, kind, hq, hwritten _ _ hw, hd⟩
    · cases hkd
  · rw [hpc]
    exact h.noted f (hf ▸ hmem)

/-! ## Calls that keep the depths -/

/-- Calls after which the builder's depths are right: no handler is added, no label is bound for
exceptions, and no branch, written where control comes, leads back to a label that was bound where control
does not come. -/
structure Sighted (b : Builder) (cs : List Call) : Prop where
  noHandler : ∀ e, .addHandler e ∉ cs
  noEntry : ∀ l d, .markEntry l d ∉ cs
  noBlind : ∀ before kind l after now bound, cs = before ++ .branch kind l :: after → b.calls before = .ok now →
    now.isReachable → b.Bound before l bound → bound.isReachable

theorem Sighted.init (h : b₀.Sighted (cs ++ [c])) : b₀.Sighted cs where
  noHandler e he := h.noHandler e (List.mem_append_left _ he)
  noEntry l d hl := h.noEntry l d (List.mem_append_left _ hl)
  noBlind before kind l after now bound hcs := h.noBlind before kind l (after ++ [c]) now bound (by simp [hcs])

/-- The book of depths has what the builder's depth was at each call that wrote an instruction, and a label
of which no depth is known was bound where none was known. -/
structure Recorded (b₀ : Builder) (cs : List Call) (b : Builder) (D : Nat → Option Nat) : Prop where
  charted : b.Charted D
  written : ∀ c now, b₀.Meets cs c now → c.Writes → now.pc < b.pc ∧ D now.pc = now.depth
  unknown : ∀ (l : Nat) s, b.labels[l]? = some s → s.pc.isSome → s.depth = none →
    ∃ now, b₀.Bound cs l now ∧ now.depth = none
  handlers : b.handlers = #[]

/-- A call that writes nothing. -/
theorem Recorded.silent (h : Recorded b₀ cs b D) (hcs : b₀.calls cs = .ok b) (hc : b'.Charted D)
    (hpc : b'.pc = b.pc) (hsilent : ¬ c.Writes) (hh : b'.handlers = b.handlers)
    (hunknown : ∀ (l : Nat) s, b'.labels[l]? = some s → s.pc.isSome → s.depth = none →
      b.labels[l]? = some s ∨ c = .mark l ∧ b.depth = none) : Recorded b₀ (cs ++ [c]) b' D := by
  refine ⟨hc, fun c' now hnow hw => ?_, fun l s hs hp hd => ?_, hh.trans h.handlers⟩
  · rcases (meets_snoc hcs).1 hnow with hnow | ⟨rfl, -⟩
    · rw [hpc]
      exact h.written c' now hnow hw
    · exact absurd hw hsilent
  · rcases hunknown l s hs hp hd with hs | ⟨hc, hdepth⟩
    · obtain ⟨now, hnow, hd⟩ := h.unknown l s hs hp hd
      exact ⟨now, (bound_snoc hcs).2 (.inl hnow), hd⟩
    · exact ⟨b, (bound_snoc hcs).2 (.inr ⟨.inl hc, rfl⟩), hdepth⟩

/-- A call that writes a draft. -/
theorem Recorded.write (h : Recorded b₀ cs b D) (hcs : b₀.calls cs = .ok b) (ha : b.Appends b' draft)
    (hc : b'.Charted (Function.update D b.pc b.depth)) (hl : LabelsKept b b') :
    Recorded b₀ (cs ++ [c]) b' (Function.update D b.pc b.depth) := by
  have hpc : b'.pc = b.pc + 1 := ha.pc
  refine ⟨hc, fun c' now hnow hw => ?_, fun l s hs hp hd => ?_, ha.handlers.trans h.handlers⟩
  · rcases (meets_snoc hcs).1 hnow with hnow | ⟨-, rfl⟩
    · obtain ⟨hlt, hd⟩ := h.written c' now hnow hw
      refine ⟨by omega, ?_⟩
      rw [Function.update_of_ne (by omega)]
      exact hd
    · exact ⟨by omega, Function.update_self ..⟩
  · obtain ⟨now, hnow, hd⟩ := h.unknown l s (hl.bound l s hs hp) hp hd
    exact ⟨now, (bound_snoc hcs).2 (.inl hnow), hd⟩

theorem Recorded.emit (h : Recorded b₀ cs b D) (hcs : b₀.calls cs = .ok b) (he : b.emit i = .ok b') :
    ∃ D', Recorded b₀ (cs ++ [.emit i]) b' D' := by
  obtain ⟨hops, hdepth, hlabels⟩ := emit_inv he
  have hkept : LabelsKept b b' := .of_eq hlabels
  refine ⟨_, h.write hcs (appends_emit he) (h.charted.append (appends_emit he) ?_ hops hdepth hkept ?_ ?_) hkept⟩
  · rintro j ⟨⟩
    exact target?_of_emit he
  · intro d kind l _ hbr
    cases hbr
  · intro l s' hs
    exact .inl (hlabels ▸ hs)

theorem Recorded.branch {kind : BranchKind} (h : Recorded b₀ cs b D) (hcs : b₀.calls cs = .ok b)
    (hsight : b₀.Sighted (cs ++ [.branch kind l])) (he : b.branch kind l = .ok b') :
    ∃ D', Recorded b₀ (cs ++ [.branch kind l]) b' D' := by
  obtain ⟨s, hs, hops, hagree, hdepth, hr⟩ := branch_inv he
  have hleaves : ∀ d, (Draft.branch kind l).leaves d = d - (Instr.branch kind 0).pops := fun d => rfl
  -- the label has the depth that the branch leaves, or it has none and is not bound
  have hstate : ∀ d, b.depth = some d → s.depth = some (d - (Instr.branch kind 0).pops) ∨
      s.depth = none ∧ s.pc = none := by
    intro d hd
    rcases hsd : s.depth with _ | e
    · refine .inr ⟨rfl, ?_⟩
      by_contra hbound
      obtain ⟨now, hnow, hblind⟩ := h.unknown l s hs (Option.isSome_iff_ne_none.2 hbound) hsd
      have := hsight.noBlind cs kind l [] b now rfl hcs (by simp [isReachable, hd]) hnow
      simp [isReachable, hblind] at this
    · exact .inl (by rw [hagree d e hd hsd])
  have hhere : ∀ s', b'.labels[l]? = some s' → s'.pc = s.pc ∧
      s'.depth = (b.depth.map fun d => d - (Instr.branch kind 0).pops).or s.depth := by
    intro s' hs'
    obtain rfl := Option.some.inj (hr.here.symm.trans hs')
    exact ⟨rfl, rfl⟩
  have hnew : ∀ (k : Nat) s', b'.labels[k]? = some s' → b.labels[k]? = some s' ∨ s'.pc = none ∧
      ∃ kind' d, Draft.branch kind l = .branch kind' k ∧ b.depth = some d ∧
        s'.depth = some ((Draft.branch kind l).leaves d) := by
    intro k s' hk
    by_cases hkl : k = l
    · subst hkl
      obtain ⟨hp, hd'⟩ := hhere s' hk
      have hsame : s'.depth = s.depth → b.labels[k]? = some s' := by
        intro hsd
        rw [hs]
        obtain ⟨p, e⟩ := s
        obtain ⟨p', e'⟩ := s'
        simp_all
      rcases hbd : b.depth with _ | d
      · exact .inl (hsame (by simpa [hbd] using hd'))
      · rw [hbd] at hd'
        rcases hstate d hbd with hsd | ⟨-, hfree⟩
        · exact .inl (hsame (hd'.trans hsd.symm))
        · exact .inr ⟨hp.trans hfree, kind, d, rfl, rfl, hd'⟩
    · rw [hr.other k hkl] at hk
      exact .inl hk
  have hkept : LabelsKept b b' := by
    refine ⟨hr.size, fun k s' hk hp => ?_, fun k s' d hk hkd => ?_⟩
    · rcases hnew k s' hk with hk | ⟨hfree, -⟩
      · exact hk
      · rw [hfree] at hp
        cases hp
    · by_cases hkl : k = l
      · subst hkl
        obtain rfl := Option.some.inj (hs.symm.trans hk)
        refine ⟨_, hr.here, ?_⟩
        rcases hbd : b.depth with _ | d₀
        · exact hkd
        · rw [hagree d₀ d hbd hkd]
          rfl
      · exact ⟨s', by rw [hr.other k hkl]; exact hk, hkd⟩
  refine ⟨_, h.write hcs (appends_branch he)
    (h.charted.append (appends_branch he) (by rintro i ⟨⟩) hops hdepth hkept ?_ hnew) hkept⟩
  rintro d kind' l' hd ⟨⟩
  exact ⟨_, hr.here, by rw [hd]; rfl⟩

theorem Recorded.mark (h : Recorded b₀ cs b D) (hcs : b₀.calls cs = .ok b) (he : b.mark l = .ok b') :
    Recorded b₀ (cs ++ [.mark l]) b' D := by
  obtain ⟨s, hs, hfree, hagree, hdepth, hr⟩ := mark_inv he
  have hb := binds_mark he
  refine h.silent hcs (h.charted.bind hb hs hfree hagree hdepth hr) hb.pc not_false
    hb.handlers fun k s' hk hp hd => ?_
  by_cases hkl : k = l
  · subst hkl
    obtain rfl := Option.some.inj (hr.here.symm.trans hk)
    exact .inr ⟨rfl, (Option.or_eq_none_iff.1 hd).1⟩
  · rw [hr.other k hkl] at hk
    exact .inl hk

/-- Calls leave a builder whose depths are recorded. -/
theorem recorded_calls (h₀ : b₀.IsNew) :
    ∀ cs b, b₀.calls cs = .ok b → b₀.Sighted cs → ∃ D, Recorded b₀ cs b D := by
  refine calls_induction (fun _ => ⟨_, .new h₀, ?_, ?_, h₀.handlers⟩) fun cs c b b' hcs ih hc hsight => ?_
  · rintro c now ⟨before, after, hcs, -⟩
    simp at hcs
  · intro l s hs
    simp [h₀.labels] at hs
  obtain ⟨D, h⟩ := ih hsight.init
  cases c with
  | newLabel =>
    cases hc
    have hnew : ∀ (l : Nat) s, b.newLabel.2.labels[l]? = some s → b.labels[l]? = some s ∨ s = {} := by
      intro l s hs
      rw [Builder.newLabel, Array.getElem?_push] at hs
      split at hs
      · exact .inr (Option.some.inj hs).symm
      · exact .inl hs
    refine ⟨D, h.silent hcs (h.charted.same rfl rfl (funext (same_newLabel b).target) rfl
      (fun l s => labels_newLabel_of_some) hnew) rfl not_false rfl ?_⟩
    intro l s hs hp _
    rcases hnew l s hs with hs | rfl
    · exact .inl hs
    · cases hp
  | newLocal ty =>
    cases hc
    exact ⟨D, h.silent hcs (h.charted.same rfl rfl rfl rfl (fun _ _ hs => hs) fun _ _ => .inl) rfl not_false rfl
      fun _ _ hs _ _ => .inl hs⟩
  | emit i => exact h.emit hcs hc
  | branch kind l => exact h.branch hcs hsight hc
  | mark l => exact ⟨D, h.mark hcs hc⟩
  | markEntry l d => exact absurd (by simp) (hsight.noEntry l d)
  | labelPc l =>
    simp only [call] at hc
    cases hp : b.labelPc l with
    | error d =>
      rw [hp] at hc
      cases hc
    | ok p =>
      rw [hp] at hc
      cases hc
      exact ⟨D, h.silent hcs h.charted rfl not_false rfl fun _ _ hs _ _ => .inl hs⟩
  | addHandler e => exact absurd (by simp) (hsight.noHandler e)

/-! ## Paths of the finished unit -/

theorem At.unique {d e : Nat} (h : b.At D pc d) (h' : b.At D pc e) : d = e := by
  rcases h with ⟨h₁, h⟩ | ⟨h₁, h⟩ <;> rcases h' with ⟨h₂, h'⟩ | ⟨h₂, h'⟩
  · exact Option.some.inj (h.symm.trans h')
  · omega
  · omega
  · exact Option.some.inj (h.symm.trans h')

variable {u : CodeUnit}

/-- Paths of the finished unit have the depths of the book. -/
theorem Charted.at_of_arrives (hc : b.Charted D) (hf : b.Finished u) (hh : b.handlers = #[]) {d : Nat}
    (h : u.Arrives pc d) : b.At D pc d := by
  induction h with
  | start => exact hc.start
  | handler entry =>
    rw [hf.handlers, hh] at entry
    simp at entry
  | @edge pc pc' d i _ code goes ih =>
    rw [hf.instrs] at code
    have hD : D pc = some d := by
      rcases ih with ⟨-, h⟩ | ⟨rfl, -⟩
      · exact h
      · exact absurd (Array.getElem?_eq_some_iff.1 code).1 (Nat.lt_irrefl _)
    rcases goes with ⟨hends, rfl⟩ | ht
    · exact hc.next pc d i hD code hends
    · cases i with
      | branch kind t =>
        obtain rfl : t = pc' := Option.some.inj ht
        obtain ⟨l, s, hw, hs, hsd⟩ := hc.jump pc d kind t hD code
        obtain ⟨t', htarget, hi⟩ := hf.branch hw
        rw [hf.instrs, code] at hi
        cases hi
        rw [target?, hs] at htarget
        have hleaves : (Draft.branch kind l).leaves d = d - (Instr.branch kind t).pops +
          (Instr.branch kind t).pushes := by
          cases kind <;> rfl
        exact hleaves ▸ hc.labels l s t _ hs htarget hsd
      | _ => cases ht

/-- What the book has is the depth of a path. -/
theorem Charted.arrives_of_at (hc : b.Charted D) (hf : b.Finished u) :
    ∀ pc d, b.At D pc d → u.Arrives pc d := by
  intro pc
  induction pc using Nat.strong_induction_on with
  | _ pc ih =>
    intro d hd
    rcases hc.origin pc d hd with ⟨rfl, rfl⟩ | ⟨q, e, draft, hq, he, hdraft, rfl, hgoes⟩
    · exact .start
    · have hfrom := ih q hq e (.inl ⟨hdraft.lt, he⟩)
      obtain ⟨i, hi, hpops, hpushes, hends, -⟩ := hdraft.code
      rw [Draft.leaves, ← hpops, ← hpushes]
      refine .edge hfrom (hf.instrs ▸ hi) ?_
      rcases hgoes with ⟨hflow, rfl⟩ | ⟨kind, l, rfl, hbound⟩
      · exact .inl ⟨hends.trans hflow, rfl⟩
      · obtain ⟨t, ht, hcode⟩ := hf.branch hdraft
        rw [hf.instrs, hi] at hcode
        obtain rfl := Option.some.inj hcode
        exact .inr (congrArg some (Option.some.inj (ht.symm.trans hbound)))

/-- The book has no depth that is greater than its position. -/
theorem Charted.low (hc : b.Charted D) : ∀ pc d, b.At D pc d → d ≤ pc := by
  intro pc
  induction pc using Nat.strong_induction_on with
  | _ pc ih =>
    intro d hd
    rcases hc.origin pc d hd with ⟨rfl, rfl⟩ | ⟨q, e, draft, hq, he, hdraft, rfl, -⟩
    · exact le_rfl
    · have hle := ih q hq e (.inl ⟨hdraft.lt, he⟩)
      obtain ⟨i, hi, hpops, -⟩ := hdraft.code
      have hops := hc.operands q e i he hi
      have := draft.instr.pushes_le
      unfold Draft.leaves
      omega

/-- Code that was built by any calls, in any order, and could be finished. Each branch instruction was
written by a branch call, and leads to the position at which the label of that call was bound. If moreover
no handler was added, no label bound for exceptions, and no branch written where control comes to a label
bound earlier where it does not, then exploring the unit fails only because control runs past the end or
returns with other than one value, and otherwise finds at each instruction the depth that the builder had
when it wrote it. -/
theorem calls_link (h₀ : b₀.IsNew) (hcs : b₀.calls cs = .ok b) (hu : b.finish = .ok u) :
    (∀ kind l now, b₀.Meets cs (.branch kind l) now → (∃ bound, b₀.Bound cs l bound) ∧
        ∀ bound, b₀.Bound cs l bound → u.instrs[now.pc]? = some (.branch kind bound.pc)) ∧
      (∀ (pc : Nat) kind t, u.instrs[pc]? = some (.branch kind t) →
        ∃ l now, b₀.Meets cs (.branch kind l) now ∧ now.pc = pc) ∧
      (b₀.Sighted cs →
        (∀ e, u.depths = .error e → e = .pastEnd u.instrs.size ∨ ∃ pc d, e = .badReturn pc d ∧ d ≠ 1) ∧
        ∀ ds, u.depths = .ok ds → ∀ c now, b₀.Meets cs c now → c.Writes → ds[now.pc]? = some now.depth) := by
  have hl := linked_calls h₀ cs b hcs
  have hf := finished hu
  refine ⟨fun kind l now hnow => ?_, fun pc kind t hi => ?_, fun hsight => ?_⟩
  · -- the target in the unit is where the label was bound, which happened once
    obtain ⟨p, hp, hi⟩ := hf.branch (hl.branches kind l now hnow)
    obtain ⟨bound, hbound, -⟩ := (hl.targets l p).1 hp
    refine ⟨⟨bound, hbound⟩, fun bound' hbound' => ?_⟩
    have hp' := (hl.targets l bound'.pc).2 ⟨bound', hbound', rfl⟩
    rw [hi, Option.some.inj (hp.symm.trans hp')]
  · exact hl.called pc kind t (hf.instrs ▸ hi)
  · -- depths that the builder knew are depths of paths, and the other way round
    obtain ⟨D, h⟩ := recorded_calls h₀ cs b hcs hsight
    have hsize : u.instrs.size = b.pc := by rw [hf.instrs]; rfl
    have hat : ∀ {pc d : Nat}, u.Arrives pc d → b.At D pc d := h.charted.at_of_arrives hf h.handlers
    have hinside : ∀ {pc d : Nat} {i : Instr}, u.Arrives pc d → u.instrs[pc]? = some i → D pc = some d := by
      intro pc d i hd hi
      rcases hat hd with ⟨-, hD⟩ | ⟨rfl, -⟩
      · exact hD
      · exact absurd (Array.getElem?_eq_some_iff.1 hi).1 (by omega)
    constructor
    · intro e he
      rcases CodeUnit.arrives_of_depths_error he with ⟨-, x, hx, -⟩ | ⟨known, pc, d, hknown, hd, -, hv⟩
      · rw [hf.handlers, h.handlers] at hx
        simp at hx
      rcases Depths.visit_error hv with
        ⟨hnone, rfl⟩ | ⟨i, hi, ⟨seen, hseen, hne, rfl⟩ | ⟨hops, rfl⟩ | ⟨hover, rfl⟩ | ⟨-, hne, rfl⟩⟩
      · left
        have hge := Array.getElem?_eq_none_iff.1 hnone
        rcases hat hd with ⟨hlt, -⟩ | ⟨rfl, -⟩
        · omega
        · rw [hsize]
      · exact absurd ((hat (hknown pc seen hseen)).unique (hat hd)) hne
      · have := h.charted.operands pc d i (hinside hd hi) (hf.instrs ▸ hi)
        omega
      · -- the stack is no higher than the code is long
        have hlow := h.charted.low pc d (hat hd)
        have hops := h.charted.operands pc d i (hinside hd hi) (hf.instrs ▸ hi)
        have := i.pushes_le
        have := (Array.getElem?_eq_some_iff.1 hi).1
        unfold Depths.limit at hover
        omega
      · exact .inr ⟨pc, d, rfl, hne⟩
    · intro ds hds c now hnow hw
      obtain ⟨hlt, hD⟩ := h.written c now hnow hw
      rcases hd : now.depth with _ | d
      · refine (CodeUnit.getElem?_depths_eq_none hds (hsize ▸ hlt)).2 fun d hd' => ?_
        rcases hat hd' with ⟨-, h'⟩ | ⟨h', -⟩
        · rw [hD, hd] at h'
          cases h'
        · omega
      · rw [CodeUnit.getElem?_depths_eq_some hds]
        exact h.charted.arrives_of_at hf now.pc d (.inl ⟨hlt, hD.trans hd⟩)

/-- Code of which nothing is written. -/
def blank : Builder where
  name := "unit"
  params := []
  ret := .int .i32
  layout := none

/-- A loop that is left from two places, and then returns. Both branches out of it are written before their label
is bound, the branch back after its own. -/
def leaveTwice : List Call :=
  [.newLabel, .newLabel, .emit .nop, .mark 0, .emit (.const (.bool false)), .branch .ifTrue 1,
    .emit (.const (.bool false)), .branch .ifTrue 1, .emit (.const (.bool true)), .branch .ifTrue 0, .mark 1,
    .emit (.const (.i32 5)), .emit .ret]

/-- Control comes to every call. -/
theorem sighted_leaveTwice : blank.Sighted leaveTwice := by
  have hall : ∀ n < 13, (blank.calls (leaveTwice.take n)).toOption.all isReachable = true := by decide +kernel
  have hreach : ∀ before c after {bound}, leaveTwice = before ++ c :: after → blank.calls before = .ok bound →
      bound.isReachable := by
    intro before c after bound hcs hbound
    have hlen : before.length < 13 := by
      have := congrArg List.length hcs
      simp [leaveTwice] at this
      omega
    have hn := hall before.length hlen
    rw [hcs, List.take_left, hbound] at hn
    exact hn
  refine ⟨by simp [leaveTwice], by simp [leaveTwice], ?_⟩
  intro before kind l after now bound hcs _ _ hbound
  rcases hbound with ⟨early, late, rfl, hearly⟩ | ⟨d, early, late, rfl, hearly⟩
  · exact hreach early (.mark l) (late ++ .branch kind l :: after) (by simp [hcs]) hearly
  · exact hreach early (.markEntry l d) (late ++ .branch kind l :: after) (by simp [hcs]) hearly

/-- The state in which a call of the list finds the builder. -/
theorem meets_leaveTwice (n p : Nat) (d : Option Nat) {c : Call}
    (hc : leaveTwice = leaveTwice.take n ++ c :: leaveTwice.drop (n + 1))
    (h : (blank.calls (leaveTwice.take n)).toOption.map (fun b => (b.pc, b.depth)) = some (p, d)) :
    ∃ now, blank.Meets leaveTwice c now ∧ now.pc = p ∧ now.depth = d := by
  rcases hnow : blank.calls (leaveTwice.take n) with e | now
  · rw [hnow] at h
    cases h
  · rw [hnow] at h
    cases h
    exact ⟨now, ⟨_, _, hc, hnow⟩, rfl, rfl⟩

theorem calls_link_leaveTwice :
    ∃ b u ds, blank.calls leaveTwice = .ok b ∧ b.finish = .ok u ∧ u.depths = .ok ds ∧
      u.instrs[2]? = some (.branch .ifTrue 7) ∧ u.instrs[4]? = some (.branch .ifTrue 7) ∧
      u.instrs[6]? = some (.branch .ifTrue 1) ∧ ds[4]? = some (some 1) ∧ ds[8]? = some (some 1) := by
  have hall : ∃ b u ds, blank.calls leaveTwice = .ok b ∧ b.finish = .ok u ∧ u.depths = .ok ds := by
    have hok : ((blank.calls leaveTwice).bind finish).toOption.any (·.depths.isOk) = true := by decide +kernel
    rcases hb : blank.calls leaveTwice with d | b <;> simp only [hb, Except.bind] at hok
    · cases hok
    rcases hu : b.finish with d | u <;> simp only [hu, Except.toOption, Option.any] at hok
    · cases hok
    rcases hds : u.depths with d | ds
    · rw [hds] at hok
      cases hok
    · exact ⟨b, u, ds, rfl, hu, hds⟩
  obtain ⟨b, u, ds, hb, hu, hds⟩ := hall
  obtain ⟨out, hout, hout₁, -⟩ := meets_leaveTwice 5 2 (some 1) rfl (by decide +kernel)
  obtain ⟨again, hagain, hagain₁, hagain₂⟩ := meets_leaveTwice 7 4 (some 1) rfl (by decide +kernel)
  obtain ⟨back, hback, hback₁, -⟩ := meets_leaveTwice 9 6 (some 1) rfl (by decide +kernel)
  obtain ⟨start, hstart, hstart₁, -⟩ := meets_leaveTwice 3 1 (some 0) rfl (by decide +kernel)
  obtain ⟨last, hlast, hlast₁, -⟩ := meets_leaveTwice 10 7 (some 0) rfl (by decide +kernel)
  obtain ⟨ret, hret, hret₁, hret₂⟩ := meets_leaveTwice 12 8 (some 1) rfl (by decide +kernel)
  obtain ⟨hlinks, -, hdepths⟩ := calls_link ⟨rfl, rfl, rfl, rfl, rfl⟩ hb hu
  have hfound := (hdepths sighted_leaveTwice).2 ds hds
  refine ⟨b, u, ds, hb, hu, hds, ?_, ?_, ?_, ?_, ?_⟩
  · exact hout₁ ▸ hlast₁ ▸ (hlinks _ _ _ hout).2 _ (.inl hlast)
  · exact hagain₁ ▸ hlast₁ ▸ (hlinks _ _ _ hagain).2 _ (.inl hlast)
  · exact hback₁ ▸ hstart₁ ▸ (hlinks _ _ _ hback).2 _ (.inl hstart)
  · exact hagain₁ ▸ hagain₂ ▸ hfound _ _ hagain trivial
  · exact hret₁ ▸ hret₂ ▸ hfound _ _ hret trivial

end Builder

end ExprCompiler
