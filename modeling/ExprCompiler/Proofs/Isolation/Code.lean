/-
Private code. A tree whose nodes only work on variables, functions and exceptions is compiled to instructions that
touch nothing but the frame, closures and new exception objects. A closure is bound to a unit only where it has
just been built: control comes to the binding instruction from the one before it, never by a branch.
-/
import ExprCompiler.Proofs.Code.Edits
import ExprCompiler.Proofs.Compile.Nested
import ExprCompiler.Proofs.Emit.Pairs

namespace ExprCompiler

/-! ## Trees and instructions -/

/-- Nodes that work on variables, functions and exceptions alone. No method stands behind an operator. -/
def Shape.isPrivate (operators : Overloads) : Shape Tree → Bool
  | .constant v => v.isImmediate
  | .parameter _ | .lambda _ _ _ | .invoke _ _ | .logical _ _ _ | .cond _ _ _ | .block _ _ | .guarded _ _ _ => true
  | .throw _ => true
  | .compare op l r given =>
    match CompareForm.choose? operators op l.ty r.ty given with
    | some (.method _) => false
    | _ => true
  | .arith op l r checked given =>
    match ArithForm.choose? operators op l.ty r.ty checked given with
    | some (.method _) => false
    | _ => true
  | .assign target _ =>
    match target.shape with
    | .parameter _ => true
    | _ => false
  | _ => false

/-- All nodes of a tree are of that kind. -/
def Tree.Private (operators : Overloads) : Tree → Prop :=
  Tree.All fun _ _ s => s.isPrivate operators = true

/-- Instructions that touch the frame, closures and new exception objects alone. `stores` says whether items of
the frame's own closure may be assigned. -/
def Instr.isPrivate (stores : Bool) : Instr → Bool
  | .const v => v.isImmediate
  | .storeItem _ _ => stores
  | .nop | .loadArg _ | .storeArg _ | .loadLocal _ | .storeLocal _ | .loadItem _ _ | .unbox _ | .castClass _ => true
  | .dup | .pop | .arith _ _ | .complement | .compare _ | .genericEq | .concat | .branch _ _ | .invoke _ _ => true
  | .default _ | .newClosure _ | .curry | .throw | .enterFinally | .endFinally | .ret => true
  | _ => false

/-- A unit of private code. Only the instruction that builds a closure leads to the one that binds it. -/
structure CodeUnit.Private (stores : Bool) (u : CodeUnit) : Prop where
  code : ∀ (pc : Nat) i, u.instrs[pc]? = some i → i.isPrivate stores = true
  curry : ∀ pc : Nat, u.instrs[pc]? = some .curry → ∃ q l, pc = q + 1 ∧ u.instrs[q]? = some (.newClosure l)
  branches : ∀ (pc : Nat) kind target, u.instrs[pc]? = some (.branch kind target) → u.instrs[target]? ≠ some .curry
  handlers : ∀ e ∈ u.handlers, u.instrs[e.target]? ≠ some .curry

/-! ## Code under construction -/

namespace Builder

/-- Control may come to the position other than from the instruction before it. -/
def Entry (b : Builder) (p : Nat) : Prop :=
  p ≤ b.pc ∧ b.instrs[p]? ≠ some .curry

/-- Private code under construction. -/
structure Private (stores : Bool) (b : Builder) : Prop where
  code : ∀ (pc : Nat) i, b.instrs[pc]? = some i → i.isPrivate stores = true
  curry : ∀ pc : Nat, b.instrs[pc]? = some .curry → ∃ q l, pc = q + 1 ∧ b.instrs[q]? = some (.newClosure l)
  branches : ∀ (pc : Nat) kind t, b.instrs[pc]? = some (.branch kind t) → b.Entry t ∨ ∃ l, ⟨pc, l⟩ ∈ b.fixups
  labels : ∀ (l : Nat) p, b.target? l = some p → b.Entry p
  handlers : ∀ e ∈ b.handlers, b.Entry e.target

variable {stores : Bool} {b b' : Builder} {d : Draft}

theorem entry_pc (b : Builder) : b.Entry b.pc := by
  have hend : b.instrs[b.pc]? = none := Array.getElem?_eq_none (Nat.le_refl _)
  exact ⟨Nat.le_refl _, by simp [hend]⟩

theorem Entry.appends {p : Nat} (h : b.Entry p) (hd : b.Appends b' d) (hc : d = .plain .curry → p ≠ b.pc) :
    b'.Entry p := by
  refine ⟨h.1.trans (by rw [hd.pc]; exact Nat.le_succ _), fun he => ?_⟩
  rw [hd.getElem?] at he
  split at he
  · rename_i hcur
    cases d with
    | plain i => exact hc (congrArg Draft.plain (Option.some.inj he)) hcur
    | branch kind l => cases he
  · exact h.2 he

theorem Private.appends (h : b.Private stores) (hd : b.Appends b' d)
    (hi : ∀ i, d = .plain i → i.isPrivate stores = true) (hplain : ∀ i, d = .plain i → i.target? = none)
    (hc : d = .plain .curry → (∃ q l, b.pc = q + 1 ∧ b.instrs[q]? = some (.newClosure l)) ∧
      (∀ l, b.target? l ≠ some b.pc) ∧ (∀ e ∈ b.handlers, e.target ≠ b.pc) ∧
      ∀ (pc : Nat) kind t, b.instrs[pc]? = some (.branch kind t) → t ≠ b.pc ∨ ∃ l, ⟨pc, l⟩ ∈ b.fixups) :
        b'.Private stores := by
  have hkeep : ∀ (pc : Nat) i, b.instrs[pc]? = some i → b'.instrs[pc]? = some i := by
    intro pc i hi
    have hlt : pc < b.pc := (Array.getElem?_eq_some_iff.1 hi).1
    rw [hd.getElem?, if_neg hlt.ne]
    exact hi
  refine ⟨fun pc i he => ?_, fun pc he => ?_, fun pc kind t he => ?_, fun l p hp => ?_, fun e he => ?_⟩
  · rw [hd.getElem?] at he
    split at he
    · cases d with
      | plain j =>
        cases he
        exact hi _ rfl
      | branch kind l =>
        cases he
        rfl
    · exact h.code pc i he
  · obtain ⟨q, l, hq, hn⟩ : ∃ q l, pc = q + 1 ∧ b.instrs[q]? = some (.newClosure l) := by
      rw [hd.getElem?] at he
      split at he
      · rename_i hcur
        subst hcur
        cases d with
        | plain j =>
          cases he
          exact (hc rfl).1
        | branch kind l => cases he
      · exact h.curry pc he
    exact ⟨q, l, hq, hkeep q _ hn⟩
  · rw [hd.getElem?] at he
    split at he
    · rename_i hcur
      subst hcur
      cases d with
      | plain j =>
        cases he
        cases hplain _ rfl
      | branch kind' l =>
        cases he
        rcases ht : b.target? l with _ | p
        · exact .inr ⟨l, (hd.fixups _).2 (.inr ⟨rfl, by rw [ht]; rfl, kind, rfl⟩)⟩
        · exact .inl ((h.labels l p ht).appends hd (by simp))
    · by_cases hnoted : ∃ l, ⟨pc, l⟩ ∈ b.fixups
      · obtain ⟨l, hl⟩ := hnoted
        exact .inr ⟨l, (hd.fixups _).2 (.inl hl)⟩
      · exact .inl (((h.branches pc kind t he).resolve_right hnoted).appends hd fun e =>
          ((hc e).2.2.2 pc kind t he).resolve_right hnoted)
  · rw [hd.target] at hp
    refine (h.labels l p hp).appends hd fun e hp' => ?_
    exact (hc e).2.1 l (hp' ▸ hp)
  · rw [hd.handlers] at he
    exact (h.handlers e he).appends hd fun e' => (hc e').2.2.1 e he

/-- A label is bound where no code is yet; the branches that wait for it are led there. -/
theorem Private.binds (h : b.Private stores) {l : Nat} (hl : b.Binds b' l) :
    b'.Private stores ∧ ∀ p, b.Entry p → b'.Entry p := by
  -- what is no branch stays as it is
  have hsame : ∀ (pc : Nat) i, i.target? = none → (b'.instrs[pc]? = some i ↔ b.instrs[pc]? = some i) := by
    intro pc i hi
    rw [hl.getElem?]
    split
    · constructor
      · intro he
        obtain ⟨j, hj, rfl⟩ := Option.map_eq_some_iff.1 he
        rw [hj, retarget_eq_self]
        cases j with
        | branch kind t => cases hi
        | _ => rfl
      · intro he
        rw [he, Option.map_some, retarget_eq_self hi]
    · rfl
  have hentry : ∀ p, b.Entry p → b'.Entry p := by
    intro p hp
    unfold Entry
    rw [hl.pc, Ne, hsame p .curry rfl]
    exact hp
  refine ⟨⟨fun pc i hi => ?_, fun pc he => ?_, fun pc kind t hi => ?_, fun k p hp => hentry p ?_,
    fun e he => hentry _ (h.handlers e (hl.handlers ▸ he))⟩, hentry⟩
  · rw [hl.getElem?] at hi
    split at hi
    · obtain ⟨j, hj, rfl⟩ := Option.map_eq_some_iff.1 hi
      have := h.code pc j hj
      cases j <;> exact this
    · exact h.code pc i hi
  · obtain ⟨q, k, hq, hn⟩ := h.curry pc ((hsame pc .curry rfl).1 he)
    exact ⟨q, k, hq, (hsame q _ rfl).2 hn⟩
  · rw [hl.getElem?] at hi
    split at hi
    · obtain ⟨j, hj, hk⟩ := Option.map_eq_some_iff.1 hi
      cases j with
      | branch kind' t' =>
        cases hk
        exact .inl (hentry _ b.entry_pc)
      | _ => cases hk
    · rename_i hnot
      rcases h.branches pc kind t hi with ht | ⟨k, hk⟩
      · exact .inl (hentry t ht)
      · refine .inr ⟨k, hl.mem_fixups.2 ⟨hk, ?_⟩⟩
        rintro rfl
        exact hnot hk
  · by_cases hk : k = l
    · subst hk
      obtain rfl := Option.some.inj (hl.bound.2.symm.trans hp)
      exact b.entry_pc
    · exact h.labels k p (hl.target k hk ▸ hp)

end Builder

/-- Private code beside itself. -/
def Pairing.isolated (stores : Bool) : Pairing where
  admits i := i.isPrivate stores = true ∧ i ≠ .curry
  code b b' := b = b' ∧ b.Private stores
  position b _ p p' := p = p' ∧ b.Entry p
  refused _ _ := True

namespace Pairing

variable {stores : Bool} {b b' : Builder}

theorem grows_isolated (h : b'.Private stores) (hp : ∀ p, b.Entry p → b'.Entry p) :
    (isolated stores).Grows b b b' b' := by
  refine ⟨⟨rfl, h⟩, ?_⟩
  rintro p _ ⟨rfl, he⟩
  exact ⟨rfl, hp p he⟩

theorem steps_isolated {e : Except Defect Builder}
    (h : ∀ b', e = .ok b' → b'.Private stores ∧ ∀ p, b.Entry p → b'.Entry p) :
    Steps (isolated stores).refused ((isolated stores).Grows b b) e e := by
  cases e with
  | error d => exact .error trivial
  | ok b' => exact .ok (grows_isolated (h b' rfl).1 (h b' rfl).2)

theorem lawful_isolated : (isolated stores).Lawful where
  unsupported _ := trivial
  defect _ _ := trivial
  depth := by rintro b _ ⟨rfl, -⟩; rfl
  nesting := by rintro b _ ⟨rfl, -⟩; rfl
  pc := by rintro b _ ⟨rfl, -⟩; exact ⟨rfl, b.entry_pc⟩
  basic i hi := by cases i <;> simp_all [isolated, Instr.isBasic, Instr.isPrivate]
  emit := by
    rintro b _ i ⟨rfl, hb⟩ ⟨hi, hc⟩
    refine steps_isolated fun b' h => ?_
    have hd := Builder.appends_emit h
    exact ⟨hb.appends hd (by rintro j ⟨⟩; exact hi) (by rintro j ⟨⟩; exact Builder.target?_of_emit h)
        fun e => absurd (Draft.plain.inj e) hc, fun p hp => hp.appends hd fun e => absurd (Draft.plain.inj e) hc⟩
  branch := by
    rintro b _ kind l ⟨rfl, hb⟩
    refine steps_isolated fun b' h => ?_
    have hd := Builder.appends_branch h
    exact ⟨hb.appends hd (by simp) (by simp) (by simp), fun p hp => hp.appends hd (by simp)⟩
  mark := by rintro b _ l ⟨rfl, hb⟩; exact steps_isolated fun b' h => hb.binds (Builder.binds_mark h)
  markEntry := by rintro b _ l d ⟨rfl, hb⟩; exact steps_isolated fun b' h => hb.binds (Builder.binds_markEntry h)
  labelPc := by
    rintro b _ l ⟨rfl, hb⟩
    rcases h : b.labelPc l with d | p
    · exact .error trivial
    · exact .ok ⟨rfl, hb.labels l p (Builder.target?_of_labelPc h)⟩
  newLabel := by
    rintro b _ ⟨rfl, hb⟩
    refine ⟨rfl, grows_isolated ⟨hb.code, hb.curry, hb.branches, fun l p hp => ?_, hb.handlers⟩ fun _ hp => hp⟩
    rw [(Builder.same_newLabel b).target] at hp
    exact hb.labels l p hp
  newLocal := by
    rintro b _ ty ⟨rfl, hb⟩
    exact ⟨rfl, grows_isolated ⟨hb.code, hb.curry, hb.branches, hb.labels, hb.handlers⟩ fun _ hp => hp⟩
  addHandler := by
    rintro b _ ⟨⟩ ⟨⟩ ⟨rfl, hb⟩ ⟨⟨⟨⟩, -⟩, ⟨⟨⟩, -⟩, ⟨⟨⟩, htarget⟩, ⟨⟩, ⟨⟩, ⟨⟩⟩
    refine grows_isolated ⟨hb.code, hb.curry, hb.branches, hb.labels, fun e he => ?_⟩ fun _ hp => hp
    rcases Array.mem_push.1 he with he | rfl
    · exact hb.handlers e he
    · exact htarget

end Pairing

/-! ## Variables and closure items -/

/-- A unit without captured parameters assigns no item of its closure. -/
structure EmitContext.Allows (ctx : EmitContext) (stores : Bool) (operators : Overloads) : Prop where
  operators : ctx.operators = operators
  params : stores = false → ctx.capture.params = []

namespace Emit

open EmitM Pairing

variable {α : Type} {stores : Bool} {operators : Overloads} {ctx : EmitContext}

theorem isolated_throw (r : Refusal) : (isolated stores).Both ctx ctx (throw r : EmitM α) (throw r) :=
    fun _ _ _ => .error trivial

theorem isolated_check (r : Except Defect α) : (isolated stores).Both ctx ctx (check r) (check r) := by
  cases r with
  | ok a => exact .of_pure a
  | error d => exact isolated_throw _

theorem isolated_layout : (isolated stores).Both ctx ctx layout layout := by
  refine .read ?_
  cases ctx.layout with
  | none => exact isolated_throw _
  | some l => exact .of_pure l

theorem isolated_found (i : Option Nat) : (isolated stores).Both ctx ctx (found i) (found i) := by
  cases i with
  | none => exact isolated_throw _
  | some i => exact .of_pure i

theorem isolated_loadItem (slot : Nat) (ty : Ty) :
    (isolated stores).Both ctx ctx (loadItem slot ty) (loadItem slot ty) := by
  refine isolated_layout.bind fun l => ?_
  cases l.strategy with
  | fixed => exact lawful_isolated.writes ⟨rfl, by simp⟩
  | indexed =>
    -- what is read from a sequence is checked, and no check is the binding of a closure
    refine .bind (lawful_isolated.writes ⟨rfl, by simp⟩) fun _ => ?_
    exact .ite (lawful_isolated.writes ⟨rfl, by simp⟩) (.ite (lawful_isolated.writes ⟨rfl, by simp⟩) (.of_pure ()))

theorem isolated_loadConstant (id : NodeId) (ty : Ty) :
    (isolated stores).Both ctx ctx (loadConstant id ty) (loadConstant id ty) :=
  .read (.bind (isolated_found _) fun _ => isolated_layout.bind fun _ =>
    .bind (isolated_check _) fun _ => isolated_loadItem _ ty)

theorem isolated_loadNested (id : NodeId) (ty : Ty) :
    (isolated stores).Both ctx ctx (loadNested id ty) (loadNested id ty) :=
  .read (.bind (isolated_found _) fun _ => isolated_layout.bind fun _ =>
    .bind (isolated_check _) fun _ => isolated_loadItem _ ty)

theorem isolated_loadVar (x : FrameVar) (ty : Ty) : (isolated stores).Both ctx ctx (loadVar x ty) (loadVar x ty) := by
  cases x with
  | arg i | localVar i => exact lawful_isolated.emits _ rfl
  | closure slot => exact isolated_loadItem slot ty

/-- Only a captured parameter is kept in the closure. -/
theorem isolated_resolve (hctx : ctx.Allows stores operators) (p : Param) :
    (isolated stores).Gives ctx ctx (fun _ _ x x' => x' = x ∧ ∀ slot, x = .closure slot → stores = true) (resolve p)
    (resolve p) := by
  refine .read ?_
  split
  · exact fun _ _ hb => .ok (.refl hb) ⟨rfl, by simp⟩
  · split
    · exact fun _ _ hb => .ok (.refl hb) ⟨rfl, by simp⟩
    · split
      · rename_i hindex _
        have hstores : stores = true := by
          by_contra hstores
          simp [Capture.paramIndex?, hctx.params (by simpa using hstores)] at hindex
        exact .bind (isolated_check _) fun _ _ _ hb => .ok (.refl hb) ⟨rfl, fun _ _ => hstores⟩
      · exact fun _ _ _ => .error trivial

theorem isolated_storeVar {x : FrameVar} (h : ∀ slot, x = .closure slot → stores = true) :
    (isolated stores).Both ctx ctx (storeVar x) (storeVar x) := by
  cases x with
  | arg i | localVar i => exact lawful_isolated.emits _ rfl
  | closure slot => exact isolated_layout.bind fun l => lawful_isolated.writes ⟨h slot rfl, by simp⟩

/-- A closure is built and bound to its unit. No label can be bound in between. -/
theorem isolated_newClosure (l : Layout) : (isolated stores).Both ctx ctx
    (do emit (.newClosure l); emit .curry) (do emit (.newClosure l); emit .curry) := by
  rintro b _ ⟨rfl, hb⟩
  rw [bind_apply]
  rcases h₁ : emit (.newClosure l) ctx b with r | ⟨⟨⟩, b₁⟩
  · exact .error trivial
  dsimp only
  rcases h₂ : emit .curry ctx b₁ with r | ⟨⟨⟩, b₂⟩
  · exact .error trivial
  have hd₁ := Builder.appends_emit (build_inv h₁)
  have hd₂ := Builder.appends_emit (build_inv h₂)
  have hpc : b₁.pc = b.pc + 1 := hd₁.pc
  have hne : ∀ {p}, b.Entry p → p ≠ b₁.pc := by
    rintro _ hp rfl
    have := hp.1
    omega
  have hb₁ : b₁.Private stores :=
    hb.appends hd₁ (by rintro _ ⟨⟩; rfl) (by rintro _ ⟨⟩; rfl) (by simp)
  have hb₂ : b₂.Private stores := by
    refine hb₁.appends hd₂ (by rintro _ ⟨⟩; rfl) (by rintro _ ⟨⟩; rfl) fun _ =>
      ⟨⟨b.pc, l, hpc, ?_⟩, fun k hk => ?_, fun e he => ?_, fun pc kind t he => ?_⟩
    · rw [hd₁.getElem?, if_pos rfl]
      rfl
    · exact hne (hb.labels k _ (hd₁.target k ▸ hk)) rfl
    · exact hne (hb.handlers e (hd₁.handlers ▸ he))
    · rw [hd₁.getElem?] at he
      split at he
      · cases he
      · exact (hb.branches pc kind t he).imp hne fun ⟨k, hk⟩ => ⟨k, (hd₁.fixups _).2 (.inl hk)⟩
  exact .ok (grows_isolated hb₂ fun p hp => (hp.appends hd₁ (by simp)).appends hd₂ fun _ => hne hp) rfl

theorem isolated_lambda (hctx : ctx.Allows stores operators) (id : NodeId) :
    (isolated stores).Both ctx ctx (lambda id) (lambda id) := by
  refine .read (.bind (isolated_found _) fun i => isolated_layout.bind fun l =>
    .bind (isolated_check _) fun slot => .read ?_)
  cases ctx.capture.nested[i]? with
  | none => exact isolated_throw _
  | some record =>
    refine .bind (isolated_loadItem _ _) fun _ => ?_
    cases record.capture with
    | none => exact .of_pure ()
    | some child =>
      cases record.artifact with
      | bare u | bound u c => exact isolated_throw _
      | curryable u layout =>
        refine .bind (.forM fun r _ => isolated_loadConstant r.node r.ty) fun _ => .bind (.forM fun p _ => ?_) fun _ =>
          .bind (.forM fun n _ => isolated_loadNested n.node n.itemType) fun _ => isolated_newClosure layout
        intro b b' hb
        refine (isolated_resolve hctx p b b' hb).bind fun x _ c c' hg hx => ?_
        obtain ⟨rfl, -⟩ := hx
        exact isolated_loadVar _ p.ty c c' hg.code

/-! ## Units -/

theorem basic_of_isPrivate {s : Shape Tree} (h : s.isPrivate operators = true) : Basic operators Tree.ty s := by
  cases s with
  | constant v => exact .constant v
  | parameter p => exact .parameter p
  | lambda params body name => exact .lambda params body name
  | invoke t args => exact .invoke t args
  | compare op l r given => exact .compare fun m hm => by simp [Shape.isPrivate, hm] at h
  | arith op l r checked given => exact .arith fun m hm => by simp [Shape.isPrivate, hm] at h
  | logical op l r => exact .logical op l r
  | cond t a b => exact .cond t a b
  | assign t v => exact .assign t v
  | block vars body => exact .block vars body
  | guarded c ks final => exact .guarded c ks final
  | throw e => exact .throw e
  | _ => cases h

theorem guides_isolated (operators : Overloads) : Guides (isolated stores) (fun id => id) fun ctx ctx' t =>
    ctx' = ctx ∧ ctx.Allows stores operators ∧ t.Private operators where
  full := by
    rintro _ _ _ _ _ ⟨rfl, hctx, ht⟩ hs
    exact absurd (hctx.operators ▸ basic_of_isPrivate ht.root) hs
  operators := by
    rintro _ _ _ ⟨rfl, -⟩
    rfl
  catchLocals := by
    rintro _ _ _ ⟨rfl, -⟩
    rfl
  constant := by
    rintro _ _ _ _ v ⟨-, -, ht⟩ himm
    have hv : v.isImmediate = true := ht.root
    rw [himm] at hv
    cases hv
  nested := by
    rintro _ _ id _ _ _ _ ⟨rfl, hctx, -⟩
    exact isolated_lambda hctx id
  token := by
    rintro _ _ _ _ p ⟨rfl, hctx, -⟩ b b' hb
    have h := isolated_resolve hctx p b b' hb
    generalize resolve p _ b = e, resolve p _ b' = e' at h
    cases h with
    | ok hg hx => exact .ok hg ⟨hx.1, isolated_loadVar _ p.ty, isolated_storeVar hx.2⟩
    | error h => exact .error h
  inside := by
    rintro _ _ _ _ _ _ _ ⟨vars, c⟩ ⟨rfl, hctx, ht⟩ - hc ho
    have hchild := ht.children c (Shape.mem_children_of_enclosed hc)
    cases ho with
    | refl => exact ⟨rfl, hctx, hchild⟩
    | scope _ hcatch => exact ⟨by rw [hcatch], ⟨hctx.operators, hctx.params⟩, hchild⟩

/-- The unit of a private tree is one of private code. If it captures no parameter, it leaves its closure alone. -/
theorem unit_private {name : String} {t : Tree} {params : List Param} {ret : Ty} {capture : Capture}
    {layout : Option Layout} {u : CodeUnit} (ht : t.Private operators)
    (hstores : stores = false → capture.params = [])
    (h : unit operators name t params ret capture layout = .ok u) : u.Private stores := by
  have hbody := (guides_isolated operators).body lawful_isolated
    (show EmitContext.mk operators params capture layout [] [] = _ ∧ _ from ⟨rfl, ⟨rfl, hstores⟩, ht⟩) ret
  have hstart : (start name params ret layout).Private stores := by
    refine ⟨fun pc i hi => ?_, fun pc hi => ?_, fun pc kind t hi => ?_, fun l p hl => ?_, fun e he => ?_⟩
    · simp [start] at hi
    · simp [start] at hi
    · simp [start] at hi
    · simp [start, Builder.target?] at hl
    · simp [start] at he
  unfold unit at h
  split at h
  · cases h
  rename_i b hrun
  split at h
  case h_2 => cases h
  rename_i u' hfinish
  cases h
  have hends := hbody _ _ ⟨rfl, hstart⟩
  rw [Tree.rename_self, hrun] at hends
  have hb : b.Private stores := by
    cases hends with
    | ok hg _ => exact hg.code.2
  have hu := Builder.finished hfinish
  refine ⟨hu.instrs ▸ hb.code, hu.instrs ▸ hb.curry, fun pc kind target hi ht => ?_, fun e he ht => ?_⟩
  · rw [hu.instrs] at hi ht
    rcases hb.branches pc kind target hi with hentry | ⟨l, hl⟩
    · exact hentry.2 ht
    · -- no branch waits for its label any more
      rw [hu.fixups] at hl
      simp at hl
  · rw [hu.handlers] at he
    exact (hb.handlers e (by simpa using he)).2 (hu.instrs ▸ ht)

end Emit

end ExprCompiler
