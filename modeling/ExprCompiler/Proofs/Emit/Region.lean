/-
Protected regions keep to the depths. The body and the clauses each end with a branch to one label,
with the depth at which the region is entered; a clause starts with one value more, the exception. The
entries of the table are written last, when their targets have been reached with those depths.
-/
import ExprCompiler.Proofs.Emit.Rules

namespace ExprCompiler

/-- The number of values that a usage leaves. -/
def Usage.count : Usage → Nat
  | .value => 1
  | .discard => 0

/-- What is known about the unit in the scope of new variables, and under exceptions being handled. -/
def EmitContext.enter (ctx : EmitContext) (scope : List (Param × Nat)) (hidden : List Nat) : EmitContext :=
  { ctx with scopes := scope :: ctx.scopes, catchLocals := hidden ++ ctx.catchLocals }

/-- The body of a clause keeps to the depths, wherever its variable and its exception are kept. -/
abbrev CatchClause.Emits (ctx : EmitContext) (ty : Ty) (usage : Usage) (c : CatchClause Emitted) (P : Tries := ⊤) :
    Prop :=
  ∀ scope hidden, EmitM.Emits (ctx.enter scope [hidden]) 0 usage.count (c.body.valueAs ty usage) P

namespace Emit

open EmitM Builder

variable {ctx : EmitContext} {b b' : Builder} {D : Nat → Option Nat} {P : Tries} {usage : Usage} {r : Region}
  {final : Option Emitted}

theorem emits_storeResult {r : Option Nat} (h : r.toList.length = usage.count) :
    Emits ctx usage.count 0 (storeResult r) P := by
  cases r <;> cases usage <;> cases h
  · exact .of_pure 0 ()
  · exact .emit (.storeLocal _) rfl

theorem emits_restore {r : Option Nat} (h : r.toList.length = usage.count) :
    Emits ctx 0 usage.count (restore r) P := by
  cases r <;> cases usage <;> cases h
  · exact .of_pure 0 ()
  · exact .emit (.loadLocal _) rfl

/-- Nothing is bound to the end of the region yet; whoever comes there has the depth of the region. -/
def Region.Awaits (r : Region) (b : Builder) : Prop :=
  ∃ d, b.labels[r.after]? = some ⟨none, d⟩ ∧ ∀ e, d = some e → e = r.stackDepth

/-- What holds between the parts of a region: control does not come to the next instruction, and the
end of the region is still to be bound. The code is longer than the stack was high at the region's start. -/
structure Region.Between (r : Region) (b : Builder) (D : Nat → Option Nat) : Prop where
  tracks : b.Tracks D
  depth : b.depth = none
  low : r.stackDepth < b.pc
  awaits : r.Awaits b

/-- A handler for the region whose entry has been written. -/
def Region.Handles (r : Region) (b : Builder) (D : Nat → Option Nat) (e : Handler) : Prop :=
  e.start = r.start ∧ e.stop = r.stop ∧ b.At D e.target e.entryDepth

/-- The entry of a clause with its test and its target. -/
def Region.entry (r : Region) (k : Ty × Nat) : Handler :=
  ⟨r.start, r.stop, .catches k.1, k.2, r.stackDepth, r.finallyDepth⟩

/-- Clauses with these tests have been written since, one after the other, and have these entries. -/
structure Region.Clauses (r : Region) (P : Tries) (b b' : Builder) (tests : List Ty) (es : List Handler) : Prop where
  guards : b.Guards P r.stackDepth b'
  entries : ∃ ks : List (Ty × Nat), ks.map Prod.fst = tests ∧ ks.map r.entry = es ∧
    (∀ k ∈ ks, b.pc ≤ k.2 ∧ k.2 < b'.pc) ∧ ks.Pairwise fun k k' => k.2 < k'.2

theorem Region.Clauses.cons {b'' : Builder} {test : Ty} {tests : List Ty} {es : List Handler}
    (hc : b.Guards P r.stackDepth b') (hlt : b.pc < b'.pc) (h : r.Clauses P b' b'' tests es) :
    r.Clauses P b b'' (test :: tests) (r.entry (test, b.pc) :: es) := by
  obtain ⟨hg, ks, rfl, rfl, hks, hpair⟩ := h
  have hle := hg.pc_le
  refine ⟨hc.trans hg, (test, b.pc) :: ks, rfl, rfl, ?_, List.pairwise_cons.2 ⟨fun k hk => ?_, hpair⟩⟩
  · rintro k (_ | ⟨_, hk⟩)
    · exact ⟨le_rfl, hlt.trans_le hle⟩
    · have := hks k hk
      omega
  · have := hks k hk
    exact hlt.trans_le this.1

/-- The end of a region has been written since, with the finally body if there is one. -/
structure Region.Ends (r : Region) (P : Tries) (b b' : Builder) (final : Bool) : Prop where
  nesting : b'.finallyNesting = b.finallyNesting
  pc_le : b.pc ≤ b'.pc
  table : ∃ zs, b'.handlers.toList = b.handlers.toList ++ zs ++
      (if final then [⟨r.start, b.pc, .finally, b.pc + 1, r.stackDepth, r.finallyDepth⟩] else []) ∧
    Table P (b.pc + 1) b'.pc r.stackDepth (b.finallyNesting + 1) zs

/-- The entries of a region that has been written as a whole. -/
theorem Region.guards {b₁ b₂ b₃ : Builder} {tests : List Ty} {es : List Handler} {final : Bool} {d : Nat}
    (hP : P tests final) (hbody : b.Guards P r.stackDepth b₁) (hc : r.Clauses P b₁ b₂ tests es)
    (hadd : b₃.handlers.toList = b₂.handlers.toList ++ es ∧ b₃.pc = b₂.pc ∧ b₃.finallyNesting = b₂.finallyNesting)
    (he : r.Ends P b₃ b' final) (hr : r.start = b.pc ∧ r.stop = b₁.pc ∧ r.finallyDepth = b.finallyNesting)
    (hd : d ≤ r.stackDepth) : b.Guards P d b' := by
  obtain ⟨hn₁, hle₁, xs, hx, tx⟩ := hbody
  obtain ⟨⟨hn₂, hle₂, ys, hy, ty⟩, ks, rfl, rfl, hks, hpair⟩ := hc
  obtain ⟨hes, hpc, hn₃⟩ := hadd
  obtain ⟨hn', hle', zs, hz, tz⟩ := he
  obtain ⟨hstart, hstop, hfinally⟩ := hr
  rw [hpc, hn₃, hn₂, hn₁, ← hfinally] at tz
  rw [hn₁, ← hfinally, ← hstop] at ty
  rw [← hfinally, ← hstart, ← hstop] at tx
  rw [hpc] at hz hle'
  have htable := Table.guarded (g := ⟨r.start, r.stop, b₂.pc, ks, final, r.stackDepth, r.finallyDepth⟩)
    ⟨hP, by simp only; omega, by simpa only [hstop] using hks, hpair, by simp only; omega⟩ tx ty tz
      ⟨hle', hd, hfinally.ge⟩
  refine ⟨by rw [hn', hn₃, hn₂, hn₁], by omega, _, ?_, Table.nil.append htable ⟨hstart.ge, by simp only; omega⟩⟩
  rw [hz, hes, hy, hx, List.nil_append]
  simp only [List.append_assoc]
  rfl

/-- The end of a part of a region: control goes to the region's end. -/
theorem Region.Between.branch (ht : b.Tracks D) (ha : r.Awaits b) (hlow : r.stackDepth ≤ b.pc)
    (hd : ∀ d, b.depth = some d → d = r.stackDepth) :
    ∃ b' D', b.branch .always r.after = .ok b' ∧ r.Between b' D' ∧ Grows [r.after] b D b' D' ∧
      b'.finallyNesting = b.finallyNesting ∧ (∀ l, l ≠ r.after → b'.labels[l]? = b.labels[l]?) ∧
      b'.pc = b.pc + 1 ∧ b'.Written b.pc (.branch .always r.after) ∧ b'.handlers = b.handlers := by
  obtain ⟨x, hl, hx⟩ := ha
  obtain ⟨b', D', h, ht', hg, hd', hn, hr, hpc, hwritten, hhandlers⟩ := ht.branch .always hl rfl (by simp [Instr.pops])
    fun d e hd₀ he => by
    simp only at he
    simp [Instr.pops, hd d hd₀, hx e he]
  refine ⟨b', D', h, ⟨ht', hd', by omega, _, hr.here, fun e he => ?_⟩, hg, hn, hr.other, hpc, hwritten, hhandlers⟩
  rcases hb : b.depth with _ | d <;> rw [hb] at he
  · exact hx e (by simpa using he)
  · have := hd d hb
    simp [Instr.pops] at he
    omega

/-- One clause of a region. -/
theorem yields_clause {c : CatchClause Emitted} (hres : r.result.toList.length = r.usage.count)
    (hbody : c.Emits ctx r.ty r.usage P) (hb : r.Between b D) :
    Yields ctx b (clause r c) fun e b' => ∃ D', r.Between b' D' ∧ Grows [r.after] b D b' D' ∧
      b'.finallyNesting = b.finallyNesting ∧ r.Handles b' D' e ∧ e = r.entry (c.test, b.pc) ∧ b.pc < b'.pc ∧
      b.Guards P r.stackDepth b' := by
  obtain ⟨x, hl, hx⟩ := hb.awaits
  have hne : r.after ≠ b.labels.size := by
    have := (Array.getElem?_eq_some_iff.1 hl).1
    omega
  obtain ⟨b₁, h₁, hmark⟩ := hb.tracks.newLabel.markEntry (d := r.stackDepth + 1) labels_newLabel rfl hb.depth (by simp)
    hb.low
  have hguards₁ : b.Guards P r.stackDepth b₁ := .same hmark.handlers hmark.nesting hmark.pc.ge
  obtain ⟨ht₁, hg₁, hd₁, hn₁, hp₁, hr₁⟩ := hmark
  have hl₁ : b₁.labels[r.after]? = some ⟨none, x⟩ := by
    rw [hr₁.other _ hne]
    exact labels_newLabel_of_some hl
  have hg : Grows [r.after, b.labels.size] b D b₁ D := (Grows.newLabel.mono (by simp)).trans (hg₁.mono (by simp))
  have hone : ∀ d, b₁.depth = some d → 1 ≤ d := by
    intro d hd
    rw [hd₁] at hd
    cases hd
    omega
  have hrest : ∀ scope hidden b₂ D₂, Adds [] 1 0 b₁ D b₂ D₂ P → Yields ctx b₂ (do
      withReader
        (fun ctx => { ctx with scopes := scope :: ctx.scopes, catchLocals := hidden :: ctx.catchLocals })
        (c.body.valueAs r.ty r.usage)
      storeResult r.result
      branch .always r.after
      let target ← EmitM.check ((← get).labelPc b.labels.size)
      return (⟨r.start, r.stop, .catches c.test, target, r.stackDepth, r.finallyDepth⟩ : Handler)) fun e b' =>
        ∃ D', r.Between b' D' ∧ Grows [r.after] b D b' D' ∧ b'.finallyNesting = b.finallyNesting ∧ r.Handles b' D' e ∧
          e = r.entry (c.test, b.pc) ∧ b.pc < b'.pc ∧ b.Guards P r.stackDepth b' := by
    intro scope hidden b₂ D₂ h₂
    refine (Emits.within (hbody scope hidden) b₂ D₂ h₂.tracks (by simp)).bind fun _ b₃ hx₃ => ?_
    obtain ⟨D₃, h₃⟩ := hx₃
    refine (emits_storeResult (P := P) hres b₃ D₃ h₃.tracks (h₃.le (by simp))).bind fun _ b₄ hx₄ => ?_
    obtain ⟨D₄, h₄⟩ := hx₄
    have hall := (h₂.trans h₃).trans h₄
    obtain ⟨b₅, D₅, h₅, hb₅, hg₅, hn₅, ho₅, hpc₅, -, hh₅⟩ := Region.Between.branch (r := r) h₄.tracks
      ⟨x, hall.grows.kept _ _ (by simp) hl₁, hx⟩ (hb.low.le.trans (hp₁.ge.trans hall.grows.pc_le)) fun d hd => by
        obtain ⟨d₁, e₁, e₂⟩ := hall.shifts d hd
        rw [hd₁] at e₁
        cases e₁
        omega
    have hentry : b₅.labels[b.labels.size]? = some ⟨some b.pc, some (r.stackDepth + 1)⟩ := by
      rw [ho₅ _ (Ne.symm hne)]
      exact hall.grows.kept _ _ (by simp) hr₁.here
    have hlabel : b₅.labelPc b.labels.size = .ok b.pc := by
      unfold labelPc
      rw [labelState_eq hentry]
      rfl
    refine .bind_ok (build_ok h₅) (.bind_ok (get_apply ctx b₅) ?_)
    rw [hlabel]
    have hguards := hguards₁.trans (hall.guards r.stackDepth fun e he => by
      rw [hd₁] at he
      cases he
      exact le_rfl)
    have hlt : b₄.pc < b₅.pc := by omega
    refine .of_pure ⟨D₅, hb₅, ?_, ?_, ⟨rfl, rfl, hb₅.tracks.labels _ _ _ _ hentry rfl rfl⟩, rfl,
      hguards.pc_le.trans_lt hlt, hguards.trans (.same hh₅ hn₅ hlt.le)⟩
    · have hgrows := (hg.trans (hall.grows.mono (by simp))).trans (hg₅.mono (by simp))
      refine hgrows.close _ fun l hl hnot => ?_
      obtain rfl : l = b.labels.size := by simp_all
      refine ⟨le_rfl, fun s hs => ?_⟩
      rw [hentry] at hs
      cases hs
      rfl
    · rw [hn₅, hall.nesting, hn₁]
      rfl
  refine .bind_ok (newLabel_apply ctx b) (.bind_ok (build_ok h₁) ?_)
  refine (Emits.newLocal (P := P) 1 .object b₁ D ht₁ hone).bind fun hidden b₂ hx₂ => ?_
  obtain ⟨D₂, h₂⟩ := hx₂
  rcases c.var with _ | p
  · refine (Emits.emit (P := P) (.storeLocal hidden) rfl b₂ D₂ h₂.tracks (h₂.le hone)).bind fun _ b₃ hx₃ => ?_
    obtain ⟨D₃, h₃⟩ := hx₃
    exact hrest [] hidden b₃ D₃ (h₂.trans h₃)
  · refine (Emits.newLocal (P := P) 1 p.ty b₂ D₂ h₂.tracks (h₂.le hone)).bind fun i b₃ hx₃ => ?_
    obtain ⟨D₃, h₃⟩ := hx₃
    refine (Emits.emit (P := P) .dup rfl b₃ D₃ h₃.tracks (h₃.le (h₂.le hone))).bind fun _ b₄ hx₄ => ?_
    obtain ⟨D₄, h₄⟩ := hx₄
    refine ((Emits.emit (P := P) (.storeLocal hidden) rfl).add 1 b₄ D₄ h₄.tracks ?_).bind fun _ b₅ hx₅ => ?_
    · exact h₄.le (h₃.le (h₂.le hone))
    obtain ⟨D₅, h₅⟩ := hx₅
    refine (Emits.emit (P := P) (.storeLocal i) rfl b₅ D₅ h₅.tracks ?_).bind fun _ b₆ hx₆ => ?_
    · exact h₅.le (h₄.le (h₃.le (h₂.le hone)))
    obtain ⟨D₆, h₆⟩ := hx₆
    exact hrest [(p, i)] hidden b₆ D₆ ((((h₂.trans h₃).trans h₄).trans h₅).trans h₆)

/-- All clauses of a region, one after the other. -/
theorem yields_clauses (hres : r.result.toList.length = r.usage.count) :
    ∀ (cs : List (CatchClause Emitted)) {b : Builder} {D : Nat → Option Nat},
      (∀ c ∈ cs, c.Emits ctx r.ty r.usage P) → r.Between b D →
      Yields ctx b (cs.mapM (clause r)) fun es b' => ∃ D', r.Between b' D' ∧ Grows [r.after] b D b' D' ∧
        b'.finallyNesting = b.finallyNesting ∧ (∀ e ∈ es, r.Handles b' D' e) ∧
        r.Clauses P b b' (cs.map CatchClause.test) es
  | [], b, D, _, hb => .of_pure ⟨D, hb, .refl, rfl, by simp, .same rfl rfl le_rfl, [], rfl, rfl, by simp, .nil⟩
  | c :: cs, b, D, hc, hb => by
    rw [List.mapM_cons]
    refine (yields_clause hres (hc c List.mem_cons_self) hb).bind
      fun e b₁ ⟨D₁, hb₁, hg₁, hn₁, he, hentry, hlt, hguards⟩ => ?_
    refine (yields_clauses hres cs (fun c' h => hc c' (List.mem_cons_of_mem c h)) hb₁).bind
      fun es b₂ ⟨D₂, hb₂, hg₂, hn₂, hes, hclauses⟩ => ?_
    refine .of_pure ⟨D₂, hb₂, hg₁.trans hg₂, hn₂.trans hn₁, fun e' he' => ?_, hentry ▸ .cons hguards hlt hclauses⟩
    rcases List.mem_cons.1 he' with rfl | he'
    · exact ⟨he.1, he.2.1, hg₂.reached _ _ he.2.2⟩
    · exact hes e' he'

/-- The entries of the clauses go into the table. -/
theorem Region.Between.addHandlers {b₀ : Builder} {D₀ : Nat → Option Nat} {ls : List Nat} (hstart : b₀.pc ≤ r.start) :
    ∀ (es : List Handler) {b : Builder}, r.Between b D → Grows ls b₀ D₀ b D → r.stop ≤ b.pc →
      (∀ e ∈ es, r.Handles b D e) →
      r.Between (es.foldl Builder.addHandler b) D ∧ Grows ls b₀ D₀ (es.foldl Builder.addHandler b) D
  | [], b, hb, hg, _, _ => ⟨hb, hg⟩
  | e :: es, b, hb, hg, hstop, hes => by
    obtain ⟨h₁, h₂, h₃⟩ := hes e List.mem_cons_self
    refine addHandlers hstart es ⟨hb.tracks.addHandler h₃, hb.depth, hb.low, hb.awaits⟩
      (hg.addHandler (by rw [h₁]; exact hstart) (by rw [h₂]; exact hstop)) hstop fun e' he' => ?_
    exact hes e' (List.mem_cons_of_mem e he')

theorem addHandlers_eq (es : List Handler) (b : Builder) :
    (es.foldl Builder.addHandler b).handlers.toList = b.handlers.toList ++ es ∧
      (es.foldl Builder.addHandler b).pc = b.pc ∧ (es.foldl Builder.addHandler b).finallyNesting =
        b.finallyNesting := by
  induction es generalizing b with
  | nil => exact ⟨by simp, rfl, rfl⟩
  | cons e es ih =>
    obtain ⟨hh, hp, hn⟩ := ih (b.addHandler e)
    exact ⟨by rw [List.foldl_cons, hh]; simp [addHandler], hp, hn⟩

/-- The end of a region. -/
theorem yields_finalize {b₀ : Builder} {D₀ : Nat → Option Nat}
    (hf : ∀ f ∈ final, Emits ctx 0 0 f.discard P) (hb : r.Between b D) (hg : Grows [r.after] b₀ D₀ b D)
    (hstart : b₀.pc ≤ r.start) (hnew : b₀.labels.size ≤ r.after) :
    Yields ctx b (finalize r final) fun _ b' => ∃ D', b'.Tracks D' ∧ Grows [] b₀ D₀ b' D' ∧
      b'.finallyNesting = b.finallyNesting ∧ (∀ d, b'.depth = some d → d = r.stackDepth) ∧
      r.Ends P b b' final.isSome := by
  obtain ⟨x, hl, hx⟩ := hb.awaits
  cases final with
  | none =>
    obtain ⟨b', h', ht', hg', hd', hn', hp', hr', hh'⟩ := hb.tracks.mark hl rfl (by simp [hb.depth])
    have he : EmitM.mark r.after ctx b = .ok ((), b') := build_ok h'
    refine .of_ok (x := finalize r none) he ⟨D, ht', (hg.trans hg').close _ fun l hl' _ => ?_, hn', fun d hd => ?_,
      hn', hp'.ge, [], by simp [hh'], .nil⟩
    · obtain rfl := List.mem_singleton.1 hl'
      refine ⟨hnew, fun s hs => ?_⟩
      rw [hr'.here] at hs
      cases hs
      rfl
    · rw [hd', hb.depth] at hd
      exact hx d hd
  | some f =>
    obtain ⟨b₁, h₁, ht₁, hg₁, hd₁, hn₁, hp₁, hr₁, hh₁⟩ := hb.tracks.markEntry hl rfl hb.depth hx hb.low.le
    obtain ⟨b₂, D₂, h₂, ht₂, hg₂, hd₂, hn₂, hp₂, hh₂⟩ := ht₁.emit (i := .enterFinally) rfl (by simp) fun d hd => by
      simp [Instr.pops]
    have hd₂' : b₂.depth = some r.stackDepth := by
      rw [hd₂, hd₁]
      rfl
    refine .bind_ok (build_ok h₁)
      (.bind_ok (get_apply ctx b₁) (.bind_ok (build_ok h₂) (.bind_ok (get_apply ctx b₂) ?_)))
    refine (hf f rfl b₂ D₂ ht₂ (by simp)).bind fun _ b₃ hran => ?_
    obtain ⟨D₃, h₃⟩ := hran
    obtain ⟨b₄, D₄, h₄, ht₄, hg₄, hd₄, hn₄, hp₄, hh₄⟩ := h₃.tracks.emit (i := .endFinally) rfl
      (fun _ => by rw [h₃.nesting, hn₂]; simp [nestingAfter]) fun d hd => by simp [Instr.pops]
    refine .bind_ok (build_ok h₄) (.of_ok (modify_apply _ ctx b₄) ?_)
    have hclosed : Grows [] b₀ D₀ b₁ D := (hg.trans hg₁).close _ fun l hl' _ => by
      obtain rfl := List.mem_singleton.1 hl'
      refine ⟨hnew, fun s hs => ?_⟩
      rw [hr₁.here] at hs
      cases hs
      rfl
    have hgrows := ((hclosed.trans hg₂).trans h₃.grows).trans hg₄
    have htarget : b₄.At D₄ b₂.pc r.stackDepth := (h₃.grows.trans hg₄).reached _ _ (.inr ⟨rfl, hd₂'⟩)
    have hn : b₄.finallyNesting = b.finallyNesting := by
      rw [hn₄, h₃.nesting, hn₂, hn₁]
      simp [nestingAfter]
    obtain ⟨-, hle₃, zs, hzs, tzs⟩ := h₃.guards r.stackDepth fun e he => by
      rw [hd₂'] at he
      cases he
      exact le_rfl
    rw [hp₂, hp₁] at hle₃ tzs
    rw [hn₂, hn₁, nestingAfter] at tzs
    refine ⟨D₄, ht₄.addHandler htarget, hgrows.addHandler hstart ((hg₂.trans h₃.grows).trans hg₄).pc_le, hn,
      fun d hd => ?_, hn, show b.pc ≤ b₄.pc by omega, zs, ?_, ?_⟩
    · have hd : b₄.depth = some d := hd
      rw [hd₄] at hd
      obtain ⟨d₃, e₃, rfl⟩ := Option.map_eq_some_iff.1 (hd : b₃.depth.map _ = some d)
      obtain ⟨d₂, e₂, e⟩ := h₃.shifts d₃ e₃
      rw [hd₂'] at e₂
      cases e₂
      simp [Instr.pops, Instr.pushes]
      omega
    · simp [addHandler, hh₄, hzs, hh₂, hh₁, hp₂, hp₁]
    · show Table P _ b₄.pc _ _ zs
      simpa using tzs.append .nil ⟨hle₃, show b₃.pc ≤ b₄.pc by omega⟩

/-- The local for the result is there exactly if the result is wanted. -/
theorem yields_resultLocal (usage : Usage) (ty : Ty) (ht : b.Tracks D) :
    Yields ctx b (resultLocal usage ty) fun result b' =>
      Adds [] 0 0 b D b' D P ∧ b'.depth = b.depth ∧ result.toList.length = usage.count := by
  cases usage with
  | value =>
    exact .bind_ok (newLocal_apply ty ctx b)
      (.of_pure ⟨.of_same 0 (ht.newLocal ty) (.newLocal ty) rfl rfl rfl, rfl, rfl⟩)
  | discard => exact .of_pure ⟨.of_same 0 ht .refl rfl rfl rfl, rfl, rfl⟩

/-- A protected region that control enters leaves what its usage asks for. -/
theorem yields_region {ty : Ty} {body : Emitted} {clauses : List (CatchClause Emitted)}
    {depth : Nat} (hb : Emits ctx 0 usage.count (body.valueAs ty usage) P) (hc : ∀ c ∈ clauses, c.Emits ctx ty usage P)
    (hf : ∀ f ∈ final, Emits ctx 0 0 f.discard P) (ht : b.Tracks D) (hd : b.depth = some depth)
    (hP : P (clauses.map CatchClause.test) final.isSome) :
    Yields ctx b (region ty body clauses final usage depth) fun _ b' => ∃ D', Adds [] 0 usage.count b D b' D' P := by
  refine (yields_resultLocal (P := P) usage ty ht).bind fun result b₁ ⟨h₁, hd₁, hres⟩ => ?_
  refine .bind_ok (get_apply ctx b₁) (.bind_ok (newLabel_apply ctx b₁) (.bind_ok (get_apply ctx _) ?_))
  refine (hb _ D h₁.tracks.newLabel (by simp)).bind fun _ b₂ ⟨D₂, h₂⟩ => ?_
  refine (emits_storeResult (P := P) hres b₂ D₂ h₂.tracks (h₂.le (by simp))).bind fun _ b₃ ⟨D₃, h₃⟩ => ?_
  have hbody := h₂.trans h₃
  have hafter : b₃.labels[b₁.labels.size]? = some {} := hbody.grows.kept _ _ (by simp) labels_newLabel
  have hstart : b₁.pc ≤ b₁.newLabel.2.pc := le_rfl
  have hdepth : ∀ d, b₃.depth = some d → d = depth := by
    intro d hd'
    obtain ⟨d₁, e₁, e₂⟩ := hbody.shifts d hd'
    rw [show b₁.newLabel.2.depth = b₁.depth from rfl, hd₁, hd] at e₁
    cases e₁
    omega
  have hlow : depth ≤ b₃.pc := (ht.low _ _ (.inr ⟨rfl, hd⟩)).trans (h₁.grows.pc_le.trans hbody.grows.pc_le)
  -- the region as the clauses and the end will see it, once its stop is known
  have hregion : ∀ stop, Region.Awaits
      ⟨ty, usage, result, b₁.labels.size, b₁.newLabel.2.pc, stop, depth, b₁.finallyNesting⟩ b₃ :=
    fun stop => ⟨none, hafter, by simp⟩
  obtain ⟨b₄, D₄, h₄, hb₄, hg₄, hn₄, -, -, -, hh₄⟩ := Region.Between.branch h₃.tracks (hregion 0) hlow hdepth
  refine .bind_ok (build_ok h₄) (.bind_ok (get_apply ctx b₄) ?_)
  have hb₄ : Region.Between
      ⟨ty, usage, result, b₁.labels.size, b₁.newLabel.2.pc, b₄.pc, depth, b₁.finallyNesting⟩ b₄ D₄ :=
    ⟨hb₄.tracks, hb₄.depth, hb₄.low, hb₄.awaits⟩
  refine (yields_clauses hres clauses hc hb₄).bind fun es b₅ ⟨D₅, hb₅, hg₅, hn₅, hes, hclauses⟩ => ?_
  have hg : Grows [b₁.labels.size] b₁ D b₅ D₅ :=
    ((Grows.newLabel.trans (hbody.grows.mono (by simp))).trans hg₄).trans hg₅
  obtain ⟨hb₆, hg₆⟩ := Region.Between.addHandlers hstart es hb₅ hg hg₅.pc_le hes
  refine .bind_ok (modify_apply _ ctx b₅) ?_
  refine (yields_finalize hf hb₆ hg₆ hstart le_rfl).bind fun _ b₇ ⟨D₇, ht₇, hg₇, hn₇, hd₇, hends⟩ => ?_
  refine (emits_restore (P := P) hres b₇ D₇ ht₇ (by simp)).mono fun _ b₈ ⟨D₈, h₈⟩ => ?_
  refine ⟨D₈, h₈.tracks, (h₁.grows.trans hg₇).trans h₈.grows, ?_, fun d hd' => ?_, fun d hd' => ?_⟩
  · rw [h₈.nesting, hn₇, (addHandlers_eq es b₅).2.2, hn₅, hn₄, hbody.nesting, ← h₁.nesting]
    rfl
  · obtain ⟨d₇, e₇, e⟩ := h₈.shifts d hd'
    have := hd₇ d₇ e₇
    exact ⟨depth, hd, by simp only at this; omega⟩
  · have hle := hd' depth hd
    have hinner := (hbody.guards depth fun e he => by
      rw [show b₁.newLabel.2.depth = b₁.depth from rfl, hd₁, hd] at he
      cases he
      exact le_rfl).trans (.same hh₄ hn₄ hg₄.pc_le)
    have hlabel : b₁.Guards P depth b₁.newLabel.2 := .same rfl rfl le_rfl
    have hall : b₁.Guards P d b₇ :=
      Region.guards hP (hlabel.trans hinner) hclauses (addHandlers_eq es b₅) hends ⟨rfl, rfl, rfl⟩ hle
    exact ((h₁.guards d hd').trans hall).trans (h₈.guards d fun e he => by rw [hd₇ e he]; exact hle)

/-- A protected region leaves what its usage asks for. -/
theorem emits_guarded {ty : Ty} {body : Emitted} {clauses : List (CatchClause Emitted)}
    (hb : Emits ctx 0 (usage.unlessVoid ty).count (body.valueAs ty (usage.unlessVoid ty)) P)
    (hc : ∀ c ∈ clauses, c.Emits ctx ty (usage.unlessVoid ty) P) (hf : ∀ f ∈ final, Emits ctx 0 0 f.discard P)
    (hP : P (clauses.map CatchClause.test) final.isSome := by exact trivial) :
    Emits ctx 0 (usage.unlessVoid ty).count (guarded ty body clauses final usage) P := by
  refine .optional (.decline _) fun b D ht _ => .bind_ok (get_apply ctx b) ?_
  rcases hd : b.depth with _ | depth
  · exact .of_pure ⟨D, ht, .refl, rfl, fun d h => (by rw [hd] at h; cases h), fun _ _ => .same rfl rfl le_rfl⟩
  · exact yields_region hb hc hf ht hd hP

end Emit

end ExprCompiler
