/-
Two code generations side by side. A pairing says which builders correspond, which positions in their code do, and
which refusals may meet. Where the operations of the builder keep to a pairing, so does the code of every tree, in
contexts whose lookups do: variables and closure items are looked up at constants, tokens and lambdas alone.
-/
import ExprCompiler.Proofs.Emit.Rules
import ExprCompiler.Proofs.Tree.Tokens

namespace ExprCompiler

/-- Defects of a unit whose code, captures and closure disagree. -/
def Defect.isOfLayout : Defect → Bool
  | .itemMissing _ _ _ | .itemCount _ _ | .bindCount _ _ | .notAnalysed | .unitWithoutClosure => true
  | .frameWithoutClosure | .curryableWithoutLayout => true
  | _ => false

/-- Instructions that depend on how closures are stored. -/
def Instr.isOfItem : Instr → Bool
  | .loadItem _ _ | .storeItem _ _ | .newClosure _ | .curry => true
  | _ => false

/-- Instructions of code that works on variables, functions and exceptions alone, but for those of closures. -/
def Instr.isBasic : Instr → Bool
  | .const v => v.isImmediate
  | .nop | .loadArg _ | .storeArg _ | .loadLocal _ | .storeLocal _ | .dup | .pop | .arith _ _ | .complement => true
  | .compare _ | .genericEq | .concat | .invoke _ _ | .default _ | .throw | .enterFinally | .endFinally | .ret => true
  | _ => false

/-- What corresponds in two code generations, and which instructions the code may have. -/
structure Pairing where
  admits : Instr → Prop
  code : Builder → Builder → Prop
  position : Builder → Builder → Nat → Nat → Prop
  refused : Refusal → Refusal → Prop

namespace Pairing

/-- Later code, with the earlier positions in place. -/
structure Grows (P : Pairing) (b b' c c' : Builder) : Prop where
  code : P.code c c'
  positions : ∀ p p', P.position b b' p p' → P.position c c' p p'

/-- Both operations of a builder succeed, with corresponding results, or both fail. -/
inductive Steps {α : Type} (refused : Refusal → Refusal → Prop) (R : α → α → Prop) :
    Except Defect α → Except Defect α → Prop
  | ok {a a' : α} (h : R a a') : Steps refused R (.ok a) (.ok a')
  | error {d d' : Defect} (h : refused (.defect d) (.defect d')) : Steps refused R (.error d) (.error d')

theorem Steps.mono {α : Type} {refused : Refusal → Refusal → Prop} {R R' : α → α → Prop} {e e' : Except Defect α}
    (h : Steps refused R e e') (hR : ∀ a a', R a a' → R' a a') : Steps refused R' e e' := by
  cases h with
  | ok h => exact .ok (hR _ _ h)
  | error h => exact .error h

/-- Entries of the two tables of protected regions. -/
structure Handlers (P : Pairing) (b b' : Builder) (e e' : Handler) : Prop where
  start : P.position b b' e.start e'.start
  stop : P.position b b' e.stop e'.stop
  target : P.position b b' e.target e'.target
  kind : e'.kind = e.kind
  stackDepth : e'.stackDepth = e.stackDepth
  finallyDepth : e'.finallyDepth = e.finallyDepth

/-- Only what depends on how closures are stored may not be admitted. -/
def Full (P : Pairing) : Prop :=
  ∀ i : Instr, i.isOfItem = false → P.admits i

/-- The operations of the builder keep to the pairing. -/
structure Lawful (P : Pairing) : Prop where
  unsupported : ∀ u, P.refused (.declined (.unsupported u)) (.declined (.unsupported u))
  defect : ∀ d, d.isOfLayout = false → P.refused (.defect d) (.defect d)
  depth : ∀ {b b'}, P.code b b' → b'.depth = b.depth
  nesting : ∀ {b b'}, P.code b b' → b'.finallyNesting = b.finallyNesting
  pc : ∀ {b b'}, P.code b b' → P.position b b' b.pc b'.pc
  basic : ∀ i, i.isBasic = true → P.admits i
  emit : ∀ {b b'} i, P.code b b' → P.admits i → Steps P.refused (P.Grows b b') (b.emit i) (b'.emit i)
  branch : ∀ {b b'} kind l, P.code b b' → Steps P.refused (P.Grows b b') (b.branch kind l) (b'.branch kind l)
  mark : ∀ {b b'} l, P.code b b' → Steps P.refused (P.Grows b b') (b.mark l) (b'.mark l)
  markEntry : ∀ {b b'} l d, P.code b b' → Steps P.refused (P.Grows b b') (b.markEntry l d) (b'.markEntry l d)
  labelPc : ∀ {b b'} l, P.code b b' → Steps P.refused (P.position b b') (b.labelPc l) (b'.labelPc l)
  newLabel : ∀ {b b'}, P.code b b' → b'.newLabel.1 = b.newLabel.1 ∧ P.Grows b b' b.newLabel.2 b'.newLabel.2
  newLocal : ∀ {b b'} ty, P.code b b' →
    (b'.newLocal ty).1 = (b.newLocal ty).1 ∧ P.Grows b b' (b.newLocal ty).2 (b'.newLocal ty).2
  addHandler : ∀ {b b' e e'}, P.code b b' → P.Handlers b b' e e' → P.Grows b b' (b.addHandler e) (b'.addHandler e')

variable {P : Pairing} {b b' c c' : Builder} {α β γ : Type} {ctx ctx' : EmitContext}

theorem Grows.refl (h : P.code b b') : P.Grows b b' b b' := ⟨h, fun _ _ hp => hp⟩

theorem Grows.trans {d d' : Builder} (h : P.Grows b b' c c') (h' : P.Grows c c' d d') : P.Grows b b' d d' :=
  ⟨h'.code, fun p p' hp => h'.positions p p' (h.positions p p' hp)⟩

theorem Handlers.grow {e e' : Handler} (h : P.Handlers b b' e e') (hg : P.Grows b b' c c') : P.Handlers c c' e e' :=
  ⟨hg.positions _ _ h.start, hg.positions _ _ h.stop, hg.positions _ _ h.target, h.kind, h.stackDepth, h.finallyDepth⟩

/-! ## Generators -/

/-- Two generators end alike, from corresponding code. -/
inductive Ends (P : Pairing) (b b' : Builder) (Q : Builder → Builder → α → α → Prop) :
    Except Refusal (α × Builder) → Except Refusal (α × Builder) → Prop
  | ok {a a' : α} {c c' : Builder} (grows : P.Grows b b' c c') (gives : Q c c' a a') :
    Ends P b b' Q (.ok (a, c)) (.ok (a', c'))
  | error {r r' : Refusal} (h : P.refused r r') : Ends P b b' Q (.error r) (.error r')

/-- Two generators keep to the pairing, with results that correspond. -/
def Gives (P : Pairing) (ctx ctx' : EmitContext) (Q : Builder → Builder → α → α → Prop) (x x' : EmitM α) : Prop :=
  ∀ b b', P.code b b' → P.Ends b b' Q (x ctx b) (x' ctx' b')

/-- Two generators keep to the pairing, with the same result. -/
def Both (P : Pairing) (ctx ctx' : EmitContext) (x x' : EmitM α) : Prop :=
  P.Gives ctx ctx' (fun _ _ a a' => a' = a) x x'

theorem Ends.bind {Q : Builder → Builder → α → α → Prop} {R : Builder → Builder → β → β → Prop} {x x' : EmitM α}
    {f f' : α → EmitM β} (hx : P.Ends b b' Q (x ctx b) (x' ctx' b'))
    (hf : ∀ a a' c c', P.Grows b b' c c' → Q c c' a a' → P.Ends c c' R (f a ctx c) (f' a' ctx' c')) :
    P.Ends b b' R ((x >>= f) ctx b) ((x' >>= f') ctx' b') := by
  rw [EmitM.bind_apply, EmitM.bind_apply]
  generalize x ctx b = e, x' ctx' b' = e' at hx
  cases hx with
  | error h => exact .error h
  | @ok a a' c c' hg hq =>
    have hrest := hf a a' c c' hg hq
    dsimp only
    generalize f a ctx c = e, f' a' ctx' c' = e' at hrest
    cases hrest with
    | error h => exact .error h
    | ok hg' hr => exact .ok (hg.trans hg') hr

namespace Gives

variable {Q : Builder → Builder → β → β → Prop} {x x' : EmitM α} {f f' : α → EmitM β}

theorem bind (hx : P.Gives ctx ctx' (fun _ _ a a' => a' = a) x x') (hf : ∀ a, P.Gives ctx ctx' Q (f a) (f' a)) :
    P.Gives ctx ctx' Q (x >>= f) (x' >>= f') :=
  fun b b' h => (hx b b' h).bind fun a _ c c' hg ha => ha ▸ hf a c c' hg.code

theorem of_pure (a : α) : P.Both ctx ctx' (pure a) (pure a) := fun _ _ h => .ok (.refl h) rfl

theorem read {f f' : EmitContext → EmitM β} (hf : P.Gives ctx ctx' Q (f ctx) (f' ctx')) :
    P.Gives ctx ctx' Q (read >>= f) (read >>= f') := hf

theorem get {f f' : Builder → EmitM β} (hf : ∀ b b', P.code b b' → P.Ends b b' Q (f b ctx b) (f' b' ctx' b')) :
    P.Gives ctx ctx' Q (get >>= f) (get >>= f') := hf

theorem ite {p : Prop} [Decidable p] {x x' y y' : EmitM β} (hx : P.Gives ctx ctx' Q x x')
    (hy : P.Gives ctx ctx' Q y y') : P.Gives ctx ctx' Q (if p then x else y) (if p then x' else y') := by
  split
  · exact hx
  · exact hy

/-- A step that is only taken under a condition. -/
theorem optional {p : Prop} [Decidable p] {x x' : EmitM PUnit} {y y' : EmitM β} (hx : P.Both ctx ctx' x x')
    (hy : P.Gives ctx ctx' Q y y') :
    P.Gives ctx ctx' Q (if p then x >>= fun _ => y else y) (if p then x' >>= fun _ => y' else y') :=
  ite (hx.bind fun _ => hy) hy

variable {A A' : Type} {g : γ → A} {g' : γ → A'}

theorem forM_map {k : A → EmitM Unit} {k' : A' → EmitM Unit} : ∀ {xs : List γ},
    (∀ a ∈ xs, P.Both ctx ctx' (k (g a)) (k' (g' a))) → P.Both ctx ctx' ((xs.map g).forM k) ((xs.map g').forM k')
  | [], _ => of_pure ()
  | a :: _, h => bind (h a List.mem_cons_self) fun _ => forM_map fun y hy => h y (List.mem_cons_of_mem a hy)

theorem forM {k k' : γ → EmitM Unit} {xs : List γ} (h : ∀ a ∈ xs, P.Both ctx ctx' (k a) (k' a)) :
    P.Both ctx ctx' (xs.forM k) (xs.forM k') := by
  rw [← List.map_id xs]
  exact forM_map h

theorem build {f f' : Builder → Except Defect Builder}
    (h : ∀ b b', P.code b b' → Steps P.refused (P.Grows b b') (f b) (f' b')) :
      P.Both ctx ctx' (EmitM.build f) (EmitM.build f') := by
  intro b b' hb
  have hstep := h b b' hb
  unfold EmitM.build
  generalize f b = e, f' b' = e' at hstep
  cases hstep with
  | ok h => exact .ok h rfl
  | error h => exact .error h

theorem check {R : α → α → Prop} {e e' : Except Defect α} (h : Steps P.refused R e e') :
    P.Gives ctx ctx' (fun _ _ => R) (EmitM.check e) (EmitM.check e') := by
  intro b b' hb
  cases h with
  | ok h => exact .ok (.refl hb) h
  | error h => exact .error h

end Gives

namespace Lawful

open EmitM

variable (L : P.Lawful) {Q : Builder → Builder → α → α → Prop}

include L

theorem decline (u : Unsupported) : P.Gives ctx ctx' Q (decline u) (decline u) := fun _ _ _ => .error (L.unsupported u)

theorem writes {i : Instr} (hi : P.admits i) : P.Both ctx ctx' (EmitM.emit i) (EmitM.emit i) :=
  .build fun _ _ hb => L.emit i hb hi

theorem emits (i : Instr) (hi : i.isBasic = true) : P.Both ctx ctx' (EmitM.emit i) (EmitM.emit i) :=
  L.writes (L.basic i hi)

theorem branches (kind : BranchKind) (l : Nat) : P.Both ctx ctx' (EmitM.branch kind l) (EmitM.branch kind l) :=
  .build fun _ _ => L.branch kind l

theorem marks (l : Nat) : P.Both ctx ctx' (EmitM.mark l) (EmitM.mark l)  := .build fun _ _ => L.mark l

theorem labels : P.Both ctx ctx' EmitM.newLabel EmitM.newLabel := fun _ _ hb => .ok (L.newLabel hb).2 (L.newLabel hb).1

theorem locals (ty : Ty) : P.Both ctx ctx' (EmitM.newLocal ty) (EmitM.newLocal ty) := fun _ _ hb =>
  .ok (L.newLocal ty hb).2 (L.newLocal ty hb).1

/-- An instruction that only some uses need. -/
theorem emitIf {p : Prop} [Decidable p] (i : Instr) (hi : i.isBasic = true) :
    P.Both ctx ctx' (if p then EmitM.emit i else pure ()) (if p then EmitM.emit i else pure ()) :=
  .ite (L.emits i hi) (.of_pure ())

theorem settle (usage : Usage) (ty : Ty) : P.Both ctx ctx' (settle usage ty) (settle usage ty) := L.emitIf _ rfl

theorem restore (temp : Option Nat) : P.Both ctx ctx' (restore temp) (restore temp) := by
  cases temp with
  | none => exact .of_pure ()
  | some i => exact L.emits _ rfl

theorem storeResult (result : Option Nat) : P.Both ctx ctx' (Emit.storeResult result) (Emit.storeResult result) := by
  cases result with
  | none => exact .of_pure ()
  | some i => exact L.emits _ rfl

theorem describe (m : Member) : P.Both ctx ctx' (EmitM.check m.describe) (EmitM.check m.describe) := by
  cases m with
  | field cls i =>
    simp only [Member.describe, Member.name, Member.fieldAt]
    cases cls.fields[i]? with
    | none => exact fun _ _ _ => .error (L.defect _ rfl)
    | some f => exact .of_pure _
  | property p | static s => exact .of_pure _

end Lawful

/-- The pairing from where two positions correspond. -/
def knowing (P : Pairing) (p p' : Nat) : Pairing :=
  { P with code := fun b b' => P.code b b' ∧ P.position b b' p p' }

theorem Grows.know {p p' : Nat} (h : P.Grows b b' c c') (hp : P.position b b' p p') :
    (P.knowing p p').Grows b b' c c' :=
  ⟨⟨h.code, h.positions p p' hp⟩, h.positions⟩

theorem Grows.forget {p p' : Nat} (h : (P.knowing p p').Grows b b' c c') : P.Grows b b' c c' := ⟨h.code.1, h.positions⟩

theorem Lawful.knowing (L : P.Lawful) (p p' : Nat) : (P.knowing p p').Lawful := by
  refine ⟨L.unsupported, L.defect, fun h => L.depth h.1, fun h => L.nesting h.1, fun h => L.pc h.1,
    L.basic, fun i h hi => (L.emit i h.1 hi).mono fun _ _ hg => hg.know h.2, fun k l h =>
      (L.branch k l h.1).mono fun _ _ hg => hg.know h.2,
    fun l h => (L.mark l h.1).mono fun _ _ hg => hg.know h.2, fun l d h =>
      (L.markEntry l d h.1).mono fun _ _ hg => hg.know h.2,
    fun l h => L.labelPc l h.1, fun h => (L.newLabel h.1).imp_right fun hg => hg.know h.2,
    fun ty h => (L.newLocal ty h.1).imp_right fun hg => hg.know h.2, fun h he => ?_⟩
  exact (L.addHandler h.1 ⟨he.start, he.stop, he.target, he.kind, he.stackDepth, he.finallyDepth⟩).know h.2

theorem Gives.knowing {Q : Builder → Builder → α → α → Prop} {x x' : EmitM α} (h : P.Gives ctx ctx' Q x x')
    (p p' : Nat) : (P.knowing p p').Gives ctx ctx' Q x x' := by
  intro b b' hb
  have hends := h b b' hb.1
  generalize x ctx b = e, x' ctx' b' = e' at hends
  cases hends with
  | ok hg hq => exact .ok (hg.know hb.2) hq
  | error hr => exact .error hr

/-- From here on, two positions are known. -/
theorem Gives.ends_knowing {Q : Builder → Builder → α → α → Prop} {x x' : EmitM α} {p p' : Nat}
    (h : (P.knowing p p').Gives ctx ctx' Q x x') (hb : P.code b b') (hp : P.position b b' p p') :
    P.Ends b b' Q (x ctx b) (x' ctx' b') := by
  have hends := h b b' ⟨hb, hp⟩
  generalize x ctx b = e, x' ctx' b' = e' at hends
  cases hends with
  | ok hg hq => exact .ok hg.forget hq
  | error hr => exact .error hr

end Pairing

/-! ## Nodes -/

/-- The codes of two nodes keep to a pairing. -/
structure Emission.Both (P : Pairing) (ctx ctx' : EmitContext) (e e' : Emission) : Prop where
  value : ∀ usage, P.Both ctx ctx' (e.value usage) (e'.value usage)
  address : P.Full → P.Both ctx ctx' e.address e'.address
  assign : ∀ {source source'}, P.Both ctx ctx' source source' → ∀ usage,
    P.Both ctx ctx' (e.assign source usage) (e'.assign source' usage)

/-- Two children of one type whose codes keep to a pairing. -/
structure Emitted.Both (P : Pairing) (ctx ctx' : EmitContext) (c c' : Emitted) : Prop where
  ty : c'.ty = c.ty
  meaning : Emission.Both P ctx ctx' c.meaning c'.meaning

namespace Emitted.Both

open EmitM

variable {P : Pairing} {ctx ctx' : EmitContext} {c c' : Emitted}

theorem wanted (h : Both P ctx ctx' c c') : P.Both ctx ctx' c.value c'.value := h.meaning.value .value

theorem discard (h : Both P ctx ctx' c c') : P.Both ctx ctx' c.discard c'.discard := h.meaning.value .discard

theorem valueAs (L : P.Lawful) (h : Both P ctx ctx' c c') (ty : Ty) (usage : Usage) :
    P.Both ctx ctx' (c.valueAs ty usage) (c'.valueAs ty usage) := by
  unfold Emitted.valueAs
  rw [h.ty]
  exact .ite (h.discard.bind fun _ => L.emits _ rfl) (h.meaning.value usage)

theorem receiver (F : P.Full) (h : Both P ctx ctx' c c') : P.Both ctx ctx' c.receiver c'.receiver := by
  unfold Emitted.receiver
  rw [h.ty]
  exact .ite (h.meaning.address F) h.wanted

end Emitted.Both

namespace Emit

open EmitM

/-- The contexts of code in the scope of some more variables of the same units. -/
inductive Opens (ctx ctx' : EmitContext) : List Param → EmitContext → EmitContext → Prop
  | refl : Opens ctx ctx' [] ctx ctx'
  | scope {vars : List Param} {scope : List (Param × Nat)} {catchLocals catchLocals' : List Nat}
    (h : scope.map Prod.fst = vars) (hc : catchLocals' = catchLocals) :
    Opens ctx ctx' vars { ctx with scopes := scope :: ctx.scopes, catchLocals }
      { ctx' with scopes := scope :: ctx'.scopes, catchLocals := catchLocals' }

variable {P : Pairing} {ctx ctx' : EmitContext} {C : Type} {g g' : C → Emitted} {l l' r r' : Emitted} {ty : Ty}
  {usage : Usage}

theorem both_values {cs : List C} (h : ∀ c ∈ cs, Emitted.Both P ctx ctx' (g c) (g' c)) :
    P.Both ctx ctx' (values (cs.map g)) (values (cs.map g')) :=
  .forM_map fun c hc => (h c hc).wanted

variable (L : P.Lawful) (F : P.Full)

include L

section

include F

theorem both_convert (h : Emitted.Both P ctx ctx' l l') (checked : Bool) (m : Option Method) :
    P.Both ctx ctx' (convert ty l checked m) (convert ty l' checked m) := by
  unfold convert
  rw [h.ty]
  split
  · exact h.wanted.bind fun _ => L.writes (F _ rfl)
  · split
    · exact L.decline _
    · exact h.wanted.bind fun _ => .forM fun s _ => L.writes (F _ (by cases s <;> rfl))

theorem both_call {o : Option C} {args : List C} (ho : ∀ c ∈ o, Emitted.Both P ctx ctx' (g c) (g' c))
    (ha : ∀ c ∈ args, Emitted.Both P ctx ctx' (g c) (g' c)) (m : Method) :
    P.Both ctx ctx' (call (o.map g) m (args.map g)) (call (o.map g') m (args.map g')) := by
  have hrest : P.Both ctx ctx' (do values (args.map g); emit (.call m)) (do values (args.map g'); emit (.call m)) :=
    (both_values ha).bind fun _ => L.writes (F _ rfl)
  unfold call
  cases o with
  | none =>
    cases m.isStatic with
    | true => exact hrest
    | false => exact .bind (L.decline _) fun _ => hrest
  | some c =>
    cases m.isStatic with
    | true => exact .bind (L.decline _) fun _ => hrest
    | false => exact ((ho c rfl).receiver F).bind fun _ => hrest

theorem both_readMember {o : Option C} (ho : ∀ c ∈ o, Emitted.Both P ctx ctx' (g c) (g' c)) (m : Member) :
    P.Both ctx ctx' (readMember (o.map g) m) (readMember (o.map g') m) := by
  cases o with
  | none =>
    cases m with
    | field cls i => exact (L.describe _).bind fun _ => L.decline _
    | property p => exact .bind (L.writes (F _ rfl)) fun _ => L.writes (F _ rfl)
    | static st => exact L.writes (F _ rfl)
  | some c =>
    cases m with
    | field cls i | property p => exact ((ho c rfl).receiver F).bind fun _ => L.writes (F _ rfl)
    | static st => exact (L.describe _).bind fun _ => L.decline _

theorem both_storeMember (m : Member) : P.Both ctx ctx' (storeMember m) (storeMember m) := by
  cases m with
  | field cls i | static st => exact L.writes (F _ rfl)
  | property p => exact .ite (L.writes (F _ rfl)) (L.decline _)

theorem both_bindings {target target' : EmitM Unit} (ht : P.Both ctx ctx' target target') {bs : List (Binding C)}
    (h : ∀ b ∈ bs, Emitted.Both P ctx ctx' (g b.value) (g' b.value)) :
    P.Both ctx ctx' (bindings target (bs.map (Binding.map g))) (bindings target' (bs.map (Binding.map g'))) := by
  refine .forM_map fun b hb => ?_
  have hrest : P.Both ctx ctx' (do (g b.value).value; storeMember b.member)
    (do (g' b.value).value; storeMember b.member) :=
    (h b hb).wanted.bind fun _ => both_storeMember L F _
  exact .ite hrest (ht.bind fun _ => hrest)

theorem both_memberInit (ht : Emitted.Both P ctx ctx' l l') {bs : List (Binding C)}
    (h : ∀ b ∈ bs, Emitted.Both P ctx ctx' (g b.value) (g' b.value)) :
    P.Both ctx ctx' (memberInit l (bs.map (Binding.map g)) usage) (memberInit l' (bs.map (Binding.map g')) usage) := by
  unfold memberInit
  rw [ht.ty]
  refine ht.wanted.bind fun _ => .ite ?_ ((both_bindings L F (L.writes (F _ rfl)) h).bind fun _ => L.settle _ _)
  refine .bind (L.locals _) fun temp => .bind (L.writes (F _ rfl)) fun _ => ?_
  exact (both_bindings L F (L.writes (F _ rfl)) h).bind fun _ => L.emitIf _ rfl

theorem both_unary (h : Emitted.Both P ctx ctx' l l') (op : UnaryOp) (checked : Bool) :
    P.Both ctx ctx' (unary op l checked) (unary op l' checked) := by
  unfold unary
  rw [h.ty]
  split
  · exact L.decline _
  · rename_i i hi
    refine h.wanted.bind fun _ => L.writes (F i ?_)
    cases op <;> simp [unaryInstr?] at hi <;> obtain ⟨-, rfl⟩ := hi <;> rfl

theorem both_coalesce (hl : Emitted.Both P ctx ctx' l l') (hr : Emitted.Both P ctx ctx' r r') :
    P.Both ctx ctx' (coalesce ty l r) (coalesce ty l' r') := by
  unfold coalesce
  rw [hl.ty]
  refine L.labels.bind fun isNull => L.labels.bind fun done => hl.wanted.bind fun _ => ?_
  refine .bind (L.emits _ rfl) fun _ => .bind (L.branches _ _) fun _ => ?_
  refine .optional (L.writes (F _ rfl)) (.bind (L.branches _ _) fun _ => .bind (L.marks _) fun _ => ?_)
  exact .bind (L.emits _ rfl) fun _ => (hr.valueAs L ty _).bind fun _ => L.marks _

end

theorem both_invoke (ht : Emitted.Both P ctx ctx' l l') {args : List C}
    (ha : ∀ c ∈ args, Emitted.Both P ctx ctx' (g c) (g' c)) :
    P.Both ctx ctx' (invoke ty l (args.map g)) (invoke ty l' (args.map g')) := by
  unfold invoke
  rw [List.length_map, List.length_map]
  exact .optional (L.decline _) (ht.wanted.bind fun _ => (both_values ha).bind fun _ => L.emits _ rfl)

theorem both_compare (ho : ctx'.operators = ctx.operators) (hl : Emitted.Both P ctx ctx' l l')
    (hr : Emitted.Both P ctx ctx' r r') (op : CmpOp) (m : Option Method)
    (hm : ∀ m', CompareForm.choose? ctx.operators op l.ty r.ty m = some (.method m') → P.Full) :
    P.Both ctx ctx' (compare op l r m) (compare op l' r' m) := by
  refine .read ?_
  rw [ho, hl.ty, hr.ty]
  split
  · exact L.decline _
  · rename_i form hform
    refine hl.wanted.bind fun _ => hr.wanted.bind fun _ => .forM fun i hi => ?_
    cases form with
    | method m' =>
      obtain rfl := List.mem_singleton.1 hi
      exact L.writes (hm m' hform _ rfl)
    | builtin =>
      obtain rfl := List.mem_singleton.1 hi
      exact L.emits _ rfl
    | generic =>
      refine L.emits i ?_
      simp only [compareInstrs] at hi
      split at hi <;> simp at hi
      · subst hi
        rfl
      · rcases hi with rfl | rfl <;> rfl

theorem both_arith (ho : ctx'.operators = ctx.operators) (hl : Emitted.Both P ctx ctx' l l')
    (hr : Emitted.Both P ctx ctx' r r') (op : ArithOp) (checked : Bool) (m : Option Method)
    (hm : ∀ m', ArithForm.choose? ctx.operators op l.ty r.ty checked m = some (.method m') → P.Full) :
    P.Both ctx ctx' (arith op l r checked m) (arith op l' r' checked m) := by
  refine .read ?_
  rw [ho, hl.ty, hr.ty]
  split
  · exact L.decline _
  · rename_i form hform
    refine hl.wanted.bind fun _ => hr.wanted.bind fun _ => ?_
    cases form with
    | method m' => exact L.writes (hm m' hform _ rfl)
    | concat | builtin mode => exact L.emits _ rfl

theorem both_logical (hl : Emitted.Both P ctx ctx' l l') (hr : Emitted.Both P ctx ctx' r r') (op : LogicalOp) :
    P.Both ctx ctx' (logical op l r) (logical op l' r') := by
  unfold logical
  rw [hl.ty, hr.ty]
  refine .optional (L.decline _) (L.labels.bind fun _ => hl.wanted.bind fun _ => .bind (L.emits _ rfl) fun _ => ?_)
  exact .bind (L.branches _ _) fun _ => .bind (L.emits _ rfl) fun _ => hr.wanted.bind fun _ => L.marks _

theorem both_cond {t t' : Emitted} (ht : Emitted.Both P ctx ctx' t t') (hl : Emitted.Both P ctx ctx' l l')
    (hr : Emitted.Both P ctx ctx' r r') : P.Both ctx ctx' (cond ty t l r usage) (cond ty t' l' r' usage) := by
  unfold cond
  rw [ht.ty]
  refine .optional (L.decline _) (L.labels.bind fun _ => L.labels.bind fun _ => ht.wanted.bind fun _ => ?_)
  refine .bind (L.branches _ _) fun _ => (hl.valueAs L ty _).bind fun _ => .bind (L.branches _ _) fun _ => ?_
  exact .bind (L.marks _) fun _ => (hr.valueAs L ty _).bind fun _ => L.marks _

theorem both_statements : ∀ {cs : List C}, (∀ c ∈ cs, Emitted.Both P ctx ctx' (g c) (g' c)) →
    P.Both ctx ctx' (statements ty usage (cs.map g)) (statements ty usage (cs.map g'))
  | [], _ => L.emitIf _ rfl
  | [c], h => (h c List.mem_cons_self).valueAs L ty usage
  | c :: _ :: _, h => (h c List.mem_cons_self).discard.bind fun _ =>
    both_statements fun x hx => h x (List.mem_cons_of_mem c hx)

/-- A scope of new variables, one for each token. -/
theorem gives_declare : ∀ vars : List Param,
    P.Gives ctx ctx' (fun _ _ scope scope' => scope' = scope ∧ scope.map Prod.fst = vars) (declare vars) (declare vars)
  | [] => fun _ _ h => .ok (.refl h) ⟨rfl, rfl⟩
  | p :: vars => by
    have hfresh : P.Gives ctx ctx' (fun _ _ v v' => v' = v ∧ v.1 = p) (fresh p) (fresh p) :=
      .bind (L.locals _) fun i => .bind (L.emits _ rfl) fun _ => .bind (L.emits _ rfl) fun _ =>
        fun _ _ h => .ok (.refl h) ⟨rfl, rfl⟩
    unfold declare
    rw [List.mapM_cons]
    intro b b' hb
    refine (hfresh b b' hb).bind fun v _ c c' hg hv => ?_
    obtain ⟨rfl, rfl⟩ := hv
    refine (gives_declare vars c c' hg.code).bind fun scope _ d d' hg' hscope => ?_
    obtain ⟨rfl, rfl⟩ := hscope
    exact .ok (.refl hg'.code) ⟨rfl, rfl⟩

theorem both_block {vars : List Param} {cs : List C} (h : ∀ ctx₁ ctx₁', Opens ctx ctx' vars ctx₁ ctx₁' →
    ∀ c ∈ cs, Emitted.Both P ctx₁ ctx₁' (g c) (g' c)) (hcatch : ctx'.catchLocals = ctx.catchLocals) :
    P.Both ctx ctx' (block ty vars (cs.map g) usage) (block ty vars (cs.map g') usage) := by
  intro b b' hb
  refine (gives_declare L vars b b' hb).bind fun scope _ c c' hg hscope => ?_
  obtain ⟨rfl, hvars⟩ := hscope
  exact both_statements L (h _ _ (.scope hvars hcatch)) c c' hg.code

/-! ## Protected regions -/

/-- The entry of a clause, in regions whose bounds correspond. -/
theorem gives_clause (region : Region) (start stop : Nat)
    (hpos : ∀ {b b'}, P.code b b' → P.position b b' region.start start ∧ P.position b b' region.stop stop)
    {k : CatchClause C} (h : ∀ ctx₁ ctx₁', Opens ctx ctx' k.var.toList ctx₁ ctx₁' → P.Both ctx₁ ctx₁'
      ((g k.body).valueAs region.ty region.usage) ((g' k.body).valueAs region.ty region.usage)) (hcatch :
        ctx'.catchLocals = ctx.catchLocals) :
    P.Gives ctx ctx' P.Handlers (clause region (k.map g)) (clause { region with start, stop } (k.map g')) := by
  refine .bind L.labels fun entry => .bind (.build fun _ _ => L.markEntry _ _) fun _ =>
    .bind (L.locals _) fun hidden => ?_
  have hrest : ∀ scope : List (Param × Nat), scope.map Prod.fst = k.var.toList → P.Gives ctx ctx' P.Handlers (do
      withReader
        (fun ctx => { ctx with scopes := scope :: ctx.scopes, catchLocals := hidden :: ctx.catchLocals })
        ((g k.body).valueAs region.ty region.usage)
      storeResult region.result
      branch .always region.after
      let target ← check ((← get).labelPc entry)
      return ⟨region.start, region.stop, .catches k.test, target, region.stackDepth, region.finallyDepth⟩) (do
      withReader
        (fun ctx => { ctx with scopes := scope :: ctx.scopes, catchLocals := hidden :: ctx.catchLocals })
        ((g' k.body).valueAs region.ty region.usage)
      storeResult region.result
      branch .always region.after
      let target ← check ((← get).labelPc entry)
      return ⟨start, stop, .catches k.test, target, region.stackDepth, region.finallyDepth⟩) := by
    intro scope hscope
    refine .bind (h _ _ (.scope hscope (congrArg (hidden :: ·) hcatch))) fun _ => (L.storeResult _).bind fun _ =>
      .bind (L.branches _ _) fun _ => .get fun b b' hb => ?_
    refine (Pairing.Gives.check (L.labelPc entry hb) b b' hb).bind fun p p' c c' hg hp => .ok (.refl hg.code) ?_
    exact ⟨(hpos hg.code).1, (hpos hg.code).2, hg.positions _ _ hp, rfl, rfl, rfl⟩
  rcases hv : k.var with _ | p
  · simp only [CatchClause.map, hv]
    exact .bind (L.emits _ rfl) fun _ => hrest [] (by rw [hv]; rfl)
  · simp only [CatchClause.map, hv]
    refine .bind (L.locals _) fun i => .bind (L.emits _ rfl) fun _ => .bind (L.emits _ rfl) fun _ => .bind
      (L.emits _ rfl) fun _ => ?_
    exact hrest [(p, i)] (by rw [hv]; rfl)

/-- The entries of all clauses, where the last one ends. -/
theorem gives_clauses (region : Region) (start stop : Nat)
    (hpos : ∀ {b b'}, P.code b b' → P.position b b' region.start start ∧ P.position b b' region.stop stop) :
    ∀ {ks : List (CatchClause C)}, (∀ k ∈ ks, ∀ ctx₁ ctx₁', Opens ctx ctx' k.var.toList ctx₁ ctx₁' → P.Both ctx₁ ctx₁'
      ((g k.body).valueAs region.ty region.usage) ((g' k.body).valueAs region.ty region.usage)) →
    ctx'.catchLocals = ctx.catchLocals →
    P.Gives ctx ctx' (fun c c' => List.Forall₂ (P.Handlers c c')) ((ks.map (CatchClause.map g)).mapM (clause region))
      ((ks.map (CatchClause.map g')).mapM (clause { region with start, stop }))
  | [], _, _ => fun _ _ hb => .ok (.refl hb) .nil
  | k :: ks, h, hcatch => by
    rw [List.map_cons, List.map_cons, List.mapM_cons, List.mapM_cons]
    intro b b' hb
    refine (gives_clause L region start stop hpos (h k List.mem_cons_self) hcatch b b' hb).bind
      fun e e' c c' hg he => ?_
    refine (gives_clauses region start stop hpos (fun k' hk => h k' (List.mem_cons_of_mem k hk)) hcatch c c'
      hg.code).bind fun es es' d d' hg' hes => ?_
    exact .ok (.refl hg'.code) (.cons (he.grow hg') hes)

theorem grows_addHandlers {es es' : List Handler} {b b' : Builder} (hb : P.code b b')
    (hes : List.Forall₂ (P.Handlers b b') es es') :
    P.Grows b b' (es.foldl Builder.addHandler b) (es'.foldl Builder.addHandler b') := by
  induction es generalizing es' b b' with
  | nil =>
    cases hes
    exact .refl hb
  | cons e es ih =>
    obtain ⟨he, hrest⟩ | ⟨he, hrest⟩ := hes
    have hg := L.addHandler hb he
    exact hg.trans (ih hg.code (hrest.imp fun _ _ h => h.grow hg))

theorem both_finalize (region : Region) (start stop : Nat)
    (hpos : ∀ {b b'}, P.code b b' → P.position b b' region.start start)
    {final : Option C} (h : ∀ c ∈ final, P.Both ctx ctx' (g c).discard (g' c).discard) :
    P.Both ctx ctx' (finalize region (final.map g)) (finalize { region with start, stop } (final.map g')) := by
  cases final with
  | none => exact L.marks _
  | some c =>
    refine .bind (.build fun _ _ => L.markEntry _ _) fun _ => .get fun b b' hb => ?_
    refine Pairing.Gives.ends_knowing (.bind ((L.emits _ rfl).knowing b.pc b'.pc) fun _ => .get fun d d' hd => ?_)
      hb (L.pc hb)
    refine Pairing.Gives.ends_knowing (.bind (((h c rfl).knowing b.pc b'.pc).knowing d.pc d'.pc) fun _ =>
      .bind (((L.emits _ rfl).knowing b.pc b'.pc).knowing d.pc d'.pc) fun _ => fun e e' he => ?_) hd (L.pc hd.1)
    refine .ok (Pairing.Grows.know (Pairing.Grows.know (L.addHandler he.1.1 ?_) he.1.2) he.2) rfl
    exact ⟨hpos he.1.1, he.1.2, he.2, rfl, rfl, rfl⟩

theorem both_guarded (hb : Emitted.Both P ctx ctx' l l') {ks : List (CatchClause C)} {final : Option C}
    (hk : ∀ k ∈ ks, ∀ ctx₁ ctx₁', Opens ctx ctx' k.var.toList ctx₁ ctx₁' → Emitted.Both P ctx₁ ctx₁' (g k.body)
      (g' k.body))
    (hf : ∀ c ∈ final, Emitted.Both P ctx ctx' (g c) (g' c)) (hcatch : ctx'.catchLocals = ctx.catchLocals) :
    P.Both ctx ctx' (guarded ty l (ks.map (CatchClause.map g)) (final.map g) usage)
      (guarded ty l' (ks.map (CatchClause.map g')) (final.map g') usage) := by
  have hregion : ∀ usage depth, P.Both ctx ctx' (region ty l (ks.map (CatchClause.map g)) (final.map g) usage depth)
      (region ty l' (ks.map (CatchClause.map g')) (final.map g') usage depth) := by
    intro usage depth
    have hresult : P.Both ctx ctx' (resultLocal usage ty) (resultLocal usage ty) :=
      .ite (.bind (L.locals _) fun _ => .of_pure _) (.of_pure _)
    refine hresult.bind fun result => .get fun b₀ b₀' hb₀ => ?_
    rw [L.nesting hb₀]
    refine Pairing.Gives.bind L.labels (fun after => .get fun b₁ b₁' hb₁ => ?_) b₀ b₀' hb₀
    -- the start of the region is known from here on, and after the body its end
    refine Pairing.Gives.ends_knowing ?_ hb₁ (L.pc hb₁)
    have L₁ := L.knowing b₁.pc b₁'.pc
    refine .bind ((hb.valueAs L ty usage).knowing _ _) fun _ => (L₁.storeResult result).bind fun _ =>
      .bind (L₁.branches _ _) fun _ => .get fun b₂ b₂' hb₂ => ?_
    refine Pairing.Gives.ends_knowing (fun b₃ b₃' hb₃ => ?_) hb₂ (L.pc hb₂.1)
    have L₂ := L₁.knowing b₂.pc b₂'.pc
    let r : Region := ⟨ty, usage, result, after, b₁.pc, b₂.pc, depth, b₀.finallyNesting⟩
    refine (gives_clauses L₂ r b₁'.pc b₂'.pc (fun h => ⟨h.1.2, h.2⟩) (fun k hmem ctx₁ ctx₁' ho =>
      (((hk k hmem ctx₁ ctx₁' ho).valueAs L ty usage).knowing _ _).knowing _ _) hcatch b₃ b₃' hb₃).bind
      fun es es' b₄ b₄' hg hes => ?_
    refine Pairing.Ends.bind (Q := fun _ _ _ _ => True) (.ok (grows_addHandlers L₂ hg.code hes) trivial)
      fun _ _ b₅ b₅' hg' _ => ?_
    have hfinal := both_finalize L₂ r b₁'.pc b₂'.pc (fun h => h.1.2) fun c hc =>
      ((hf c hc).discard.knowing _ _).knowing _ _
    exact hfinal.bind (fun _ => L₂.restore result) b₅ b₅' hg'.code
  have hfilter : ((ks.map (CatchClause.map g')).any fun k => k.filter.isSome) =
      (ks.map (CatchClause.map g)).any fun k => k.filter.isSome := by
    simp [List.any_map, CatchClause.map, Function.comp_def]
  unfold guarded
  rw [hfilter]
  refine .optional (L.decline _) (.get fun b b' hcode => ?_)
  rw [L.depth hcode]
  cases b.depth with
  | none => exact .ok (.refl hcode) rfl
  | some depth => exact hregion _ depth b b' hcode

theorem both_throwing (hcatch : ctx'.catchLocals = ctx.catchLocals) {o : Option C}
    (h : ∀ c ∈ o, Emitted.Both P ctx ctx' (g c) (g' c)) :
      P.Both ctx ctx' (throwing (o.map g)) (throwing (o.map g')) := by
  cases o with
  | some c => exact (h c rfl).wanted.bind fun _ => L.emits _ rfl
  | none =>
    refine .read ?_
    rw [hcatch]
    cases ctx.catchLocals with
    | nil => exact .bind (L.decline _) fun _ => L.emits _ rfl
    | cons hidden _ => exact .bind (L.emits _ rfl) fun _ => L.emits _ rfl

/-! ## Trees -/

/-- Nodes whose code has basic instructions alone, but for those of closures. No method stands behind an operator. -/
inductive Basic (operators : Overloads) (ty : C → Ty) : Shape C → Prop
  | constant (v : Value) : Basic operators ty (.constant v)
  | parameter (p : Param) : Basic operators ty (.parameter p)
  | lambda (params : List Param) (body : C) (name : Option String) : Basic operators ty (.lambda params body name)
  | invoke (t : C) (args : List C) : Basic operators ty (.invoke t args)
  | compare {op : CmpOp} {l r : C} {given : Option Method}
    (h : ∀ m, CompareForm.choose? operators op (ty l) (ty r) given ≠ some (.method m)) :
      Basic operators ty (.compare op l r given)
  | arith {op : ArithOp} {l r : C} {checked : Bool} {given : Option Method}
    (h : ∀ m, ArithForm.choose? operators op (ty l) (ty r) checked given ≠ some (.method m)) :
    Basic operators ty (.arith op l r checked given)
  | logical (op : LogicalOp) (l r : C) : Basic operators ty (.logical op l r)
  | cond (t a b : C) : Basic operators ty (.cond t a b)
  | assign (t v : C) : Basic operators ty (.assign t v)
  | block (vars : List Param) (body : List C) : Basic operators ty (.block vars body)
  | guarded (c : C) (ks : List (CatchClause C)) (final : Option C) : Basic operators ty (.guarded c ks final)
  | throw (e : Option C) : Basic operators ty (.throw e)

/-- What a node looks up keeps to a pairing, and so do its children, with what the node declares around them. -/
structure Looks (P : Pairing) (ctx ctx' : EmitContext) (id id' : NodeId) (g g' : C → Emitted) (s : Shape C) : Prop where
  full : ¬ Basic ctx.operators (fun c => (g c).ty) s → P.Full
  operators : ctx'.operators = ctx.operators
  catchLocals : ctx'.catchLocals = ctx.catchLocals
  constant : ∀ v, s = .constant v → v.isImmediate = false → P.Both ctx ctx' (Emit.constant id v) (Emit.constant id' v)
  nested : ∀ params body name, s = .lambda params body name → P.Both ctx ctx' (lambda id) (lambda id')
  token : ∀ p, s = .parameter p → P.Gives ctx ctx' (fun _ _ x x' => x' = x ∧
    P.Both ctx ctx' (loadVar x p.ty) (loadVar x p.ty) ∧ P.Both ctx ctx' (storeVar x) (storeVar x))
      (resolve p) (resolve p)
  children : (∀ params body name, s ≠ .lambda params body name) → ∀ c ∈ s.enclosed, ∀ ctx₁ ctx₁',
    Opens ctx ctx' c.1 ctx₁ ctx₁' → Emitted.Both P ctx₁ ctx₁' (g c.2) (g' c.2)

variable {id id' : NodeId} {s : Shape C}

omit L in
theorem Looks.child (h : Looks P ctx ctx' id id' g g' s) {c : C} (hc : ([], c) ∈ s.enclosed)
    (hs : ∀ params body name, s ≠ .lambda params body name := by simp) : Emitted.Both P ctx ctx' (g c) (g' c) :=
  h.children hs _ hc ctx ctx' .refl

omit L in
theorem Looks.clauses {c : C} {ks : List (CatchClause C)} {final : Option C}
    (h : Looks P ctx ctx' id id' g g' (.guarded c ks final)) : ∀ k ∈ ks, ∀ ctx₁ ctx₁',
      Opens ctx ctx' k.var.toList ctx₁ ctx₁' → Emitted.Both P ctx₁ ctx₁' (g k.body) (g' k.body) := by
  intro k hk
  refine h.children (by simp) (k.var.toList, k.body) ?_
  simp only [Shape.enclosed, List.mem_append, List.mem_cons, List.mem_flatMap]
  exact .inl (.inr ⟨k, hk, by simp [CatchClause.children]⟩)

omit L in
theorem Looks.bindings {c : C} {bs : List (Binding C)} (h : Looks P ctx ctx' id id' g g' (.memberInit c bs)) :
    ∀ b ∈ bs, Emitted.Both P ctx ctx' (g b.value) (g' b.value) := by
  intro b hb
  refine h.child ?_
  simp only [Shape.enclosed, Shape.children, List.map_cons, List.mem_cons, List.map_map, List.mem_map]
  exact .inr ⟨b, hb, rfl⟩

theorem both_used (h : Looks P ctx ctx' id id' g g' s) (ty : Ty) (usage : Usage) :
    P.Both ctx ctx' (used id ty (s.map g) usage) (used id' ty (s.map g') usage) := by
  have hwanted : ∀ {x x' : EmitM Unit}, P.Both ctx ctx' x x' →
      P.Both ctx ctx' (if usage = .value then x else pure ()) (if usage = .value then x' else pure ()) :=
    fun hx => .ite hx (.of_pure ())
  have hsettled : ∀ {x x' : EmitM Unit}, P.Both ctx ctx' x x' →
      P.Both ctx ctx' (do x; settle usage ty) (do x'; settle usage ty) := fun hx => hx.bind fun _ => L.settle _ _
  cases s with
  | constant v =>
    refine hwanted ?_
    by_cases himm : v.isImmediate
    · have hemit : P.Both ctx ctx' (emit (.const v)) (emit (.const v)) := L.emits _ himm
      simpa [Shape.map, produce, Emit.constant, himm] using hemit
    · exact h.constant v rfl (by simpa using himm)
  | lambda params body name => exact hwanted (h.nested params body name rfl)
  | default => exact hwanted (L.emits _ rfl)
  | parameter p =>
    intro b b' hb
    refine (h.token p rfl b b' hb).bind fun x _ c c' hg hx => ?_
    obtain ⟨rfl, hload, -⟩ := hx
    exact hwanted hload c c' hg.code
  | convert e checked m => exact hsettled (both_convert L (h.full (by rintro ⟨⟩)) (h.child (by simp)) checked m)
  | arrayIndex a i =>
    have F := h.full (by rintro ⟨⟩)
    exact hsettled ((h.child (by simp)).wanted.bind fun _ =>
      (h.child (by simp)).wanted.bind fun _ => L.writes (F _ rfl))
  | call r m args =>
    exact hsettled (both_call L (h.full (by rintro ⟨⟩)) (fun c hc => h.child (by simp_all))
      (fun c hc => h.child (by simp [hc])) m)
  | member r m => exact hsettled (both_readMember L (h.full (by rintro ⟨⟩)) (fun c hc => h.child (by simp_all)) m)
  | new ctor args =>
    exact hsettled ((both_values fun c hc => h.child (by simp [hc])).bind fun _ =>
      L.writes (h.full (by rintro ⟨⟩) _ rfl))
  | newArray elem items =>
    refine hsettled ?_
    simp only [Shape.map, produce, List.length_map]
    exact .optional (L.decline _) ((both_values fun c hc => h.child (by simp [hc])).bind fun _ =>
      L.writes (h.full (by rintro ⟨⟩) _ rfl))
  | newArrayOfLength elem n =>
    exact hsettled ((h.child (by simp)).wanted.bind fun _ => L.writes (h.full (by rintro ⟨⟩) _ rfl))
  | invoke t args => exact hsettled (both_invoke L (h.child (by simp)) fun c hc => h.child (by simp [hc]))
  | compare op l r m =>
    refine hsettled (both_compare L h.operators (h.child (by simp)) (h.child (by simp)) op m fun m' hm => h.full
      fun hb => ?_)
    cases hb with
    | compare hnone => exact hnone m' hm
  | arith op l r checked m =>
    refine hsettled (both_arith L h.operators (h.child (by simp)) (h.child (by simp)) op checked m fun m' hm => h.full
      fun hb => ?_)
    cases hb with
    | arith hnone => exact hnone m' hm
  | unary op e checked => exact hsettled (both_unary L (h.full (by rintro ⟨⟩)) (h.child (by simp)) op checked)
  | logical op l r => exact hsettled (both_logical L (h.child (by simp)) (h.child (by simp)) op)
  | coalesce l r => exact hsettled (both_coalesce L (h.full (by rintro ⟨⟩)) (h.child (by simp)) (h.child (by simp)))
  | index r ix args =>
    have F := h.full (by rintro ⟨⟩)
    refine hsettled (((h.child (by simp)).receiver F).bind fun _ => ?_)
    exact (both_values fun c hc => h.child (by simp [hc])).bind fun _ => L.writes (F _ rfl)
  | memberInit t bs => exact both_memberInit L (h.full (by rintro ⟨⟩)) (h.child (by simp)) h.bindings
  | cond t a b => exact both_cond L (h.child (by simp)) (h.child (by simp)) (h.child (by simp))
  | assign t v => exact (h.child (by simp)).meaning.assign (h.child (by simp)).wanted usage
  | block vars body =>
    exact both_block L (fun _ _ ho c hc => h.children (by simp) (vars, c) (by simp [hc]) _ _ ho) h.catchLocals
  | guarded c ks final =>
    exact both_guarded L (h.child (by simp)) h.clauses (fun c hc => h.child (by simp_all)) h.catchLocals
  | throw o => exact both_throwing L h.catchLocals fun c hc => h.child (by simp_all)

theorem both_value (h : Looks P ctx ctx' id id' g g' s) (ty : Ty) (usage : Usage) :
    P.Both ctx ctx' (value id ty (s.map g) usage) (value id' ty (s.map g') usage) :=
  .ite (L.decline _) (both_used L h ty usage)

theorem both_address (F : P.Full) (h : Looks P ctx ctx' id id' g g' s) (ty : Ty) :
    P.Both ctx ctx' (address id ty (s.map g)) (address id' ty (s.map g')) := by
  have hcopy : P.Both ctx ctx' (do
      value id ty (s.map g) .value
      let temp ← newLocal ty
      emit (.storeLocal temp)
      emit (.loadLocalAddr temp)) (do
      value id' ty (s.map g') .value
      let temp ← newLocal ty
      emit (.storeLocal temp)
      emit (.loadLocalAddr temp)) :=
    (both_value L h ty .value).bind fun _ => .bind (L.locals ty) fun _ => .bind (L.writes (F _ rfl)) fun _ => L.writes
      (F _ rfl)
  cases s with
  | parameter p =>
    intro b b' hb
    refine (h.token p rfl b b' hb).bind fun _ x c c' hg hx => ?_
    obtain ⟨rfl, -⟩ := hx
    have haddr : P.Both ctx ctx' (loadVarAddr x) (loadVarAddr x) := by cases x <;> exact L.writes (F _ rfl)
    exact haddr c c' hg.code
  | arrayIndex a i =>
    exact (h.child (by simp)).wanted.bind fun _ => (h.child (by simp)).wanted.bind fun _ => L.writes (F _ rfl)
  | member r m =>
    cases r with
    | none => exact hcopy
    | some r =>
      cases m with
      | field cls i => exact ((h.child (by simp)).receiver F).bind fun _ => L.writes (F _ rfl)
      | property p | static st => exact hcopy
  | _ => exact hcopy

theorem both_storeBy {store : EmitM Unit} (h : P.Both ctx ctx' store store) (ty : Ty) (usage : Usage) :
    P.Both ctx ctx' (storeBy store ty usage) (storeBy store ty usage) := by
  have hkeep : P.Both ctx ctx' (keep usage ty) (keep usage ty) :=
    .ite (.bind (L.locals ty) fun _ => .bind (L.emits _ rfl) fun _ => .bind (L.emits _ rfl) fun _ => .of_pure _)
      (.of_pure _)
  exact hkeep.bind fun _ => h.bind fun _ => L.restore _

theorem both_assign (h : Looks P ctx ctx' id id' g g' s) (ty : Ty) {source source' : EmitM Unit}
    (hsource : P.Both ctx ctx' source source') (usage : Usage) :
    P.Both ctx ctx' (assign ty (s.map g) source usage) (assign ty (s.map g') source' usage) := by
  have hstore : ∀ i : Instr, P.admits i → P.Both ctx ctx' (do source; storeBy (emit i) ty usage)
      (do source'; storeBy (emit i) ty usage) := fun i hi => hsource.bind fun _ => both_storeBy L (L.writes hi) _ _
  cases s with
  | parameter p =>
    intro b b' hb
    refine (h.token p rfl b b' hb).bind fun x _ c c' hg hx => ?_
    obtain ⟨rfl, -, hstore⟩ := hx
    exact hsource.bind (fun _ => .optional (L.emits _ rfl) hstore) c c' hg.code
  | member r m =>
    cases r with
    | none =>
      cases m with
      | static st => exact hsource.bind fun _ => .optional (L.emits _ rfl) (L.writes (h.full (by rintro ⟨⟩) _ rfl))
      | field cls i | property p => exact L.decline _
    | some r =>
      have F := h.full (by rintro ⟨⟩)
      refine .ite (L.decline _) (.ite ((L.describe _).bind fun _ => L.decline _) ?_)
      exact ((h.child (by simp)).receiver F).bind fun _ => hsource.bind fun _ =>
        both_storeBy L (both_storeMember L F _) _ _
  | arrayIndex a i =>
    have F := h.full (by rintro ⟨⟩)
    refine (h.child (by simp)).wanted.bind fun _ => (h.child (by simp)).wanted.bind fun _ => .ite ?_
      (hstore _ (F _ rfl))
    exact .bind (L.writes (F _ rfl)) fun _ => hstore _ (F _ rfl)
  | index r ix args =>
    have F := h.full (by rintro ⟨⟩)
    refine .optional (L.decline _) (((h.child (by simp)).receiver F).bind fun _ => ?_)
    exact (both_values fun c hc => h.child (by simp [hc])).bind fun _ => hstore _ (F _ rfl)
  | _ => exact L.decline _

omit L in
/-- A property of trees in pairs of contexts under which lookups keep to a pairing, where the second tree is renamed,
and which goes over to all nodes below whose code is of the same unit. -/
structure Guides (P : Pairing) (f : NodeId → NodeId) (Good : EmitContext → EmitContext → Tree → Prop) : Prop where
  full : ∀ {ctx ctx' id ty s}, Good ctx ctx' (.node id ty s) → ¬ Basic ctx.operators Tree.ty s → P.Full
  operators : ∀ {ctx ctx' t}, Good ctx ctx' t → ctx'.operators = ctx.operators
  catchLocals : ∀ {ctx ctx' t}, Good ctx ctx' t → ctx'.catchLocals = ctx.catchLocals
  constant : ∀ {ctx ctx' id ty v}, Good ctx ctx' (.node id ty (.constant v)) → v.isImmediate = false →
    P.Both ctx ctx' (Emit.constant id v) (Emit.constant (f id) v)
  nested : ∀ {ctx ctx' id ty params body name}, Good ctx ctx' (.node id ty (.lambda params body name)) →
    P.Both ctx ctx' (lambda id) (lambda (f id))
  token : ∀ {ctx ctx' id ty p}, Good ctx ctx' (.node id ty (.parameter p)) → P.Gives ctx ctx' (fun _ _ x x' => x' = x ∧
    P.Both ctx ctx' (loadVar x p.ty) (loadVar x p.ty) ∧ P.Both ctx ctx' (storeVar x) (storeVar x))
      (resolve p) (resolve p)
  inside : ∀ {ctx ctx' ctx₁ ctx₁' id ty s c}, Good ctx ctx' (.node id ty s) →
    (∀ params body name, s ≠ .lambda params body name) → c ∈ s.enclosed → Opens ctx ctx' c.1 ctx₁ ctx₁' →
      Good ctx₁ ctx₁' c.2

variable {f : NodeId → NodeId} {Good : EmitContext → EmitContext → Tree → Prop}

theorem Guides.emission (G : Guides P f Good) {t : Tree} (h : Good ctx ctx' t) :
    Emission.Both P ctx ctx' t.emission (t.rename f).emission := by
  induction t using Tree.induct generalizing ctx ctx' with
  | node id ty s ih =>
    have hlooks : Looks P ctx ctx' id (f id) (.of Tree.emission) (.of Tree.emission ∘ Tree.rename f) s := by
      refine ⟨G.full h, G.operators h, G.catchLocals h, ?_, ?_, ?_, fun hs c hc ctx₁ ctx₁' ho => ?_⟩
      · rintro v rfl himm
        exact G.constant h himm
      · rintro params body name rfl
        exact G.nested h
      · rintro p rfl
        exact G.token h
      · exact ⟨Tree.ty_rename f c.2, ih c.2 (Shape.mem_children_of_enclosed hc) (G.inside h hs hc ho)⟩
    rw [Tree.rename_node, Tree.emission, Tree.fold_node, Tree.fold_node, Shape.map_map]
    exact ⟨fun usage => both_value L hlooks ty usage, fun F => both_address L F hlooks ty, fun hsource usage =>
      both_assign L hlooks ty hsource usage⟩

theorem Guides.body (G : Guides P f Good) {t : Tree} (h : Good ctx ctx' t) (ret : Ty) :
    P.Both ctx ctx' (body t ret) (body (t.rename f) ret) := by
  have he : Emitted.Both P ctx ctx' (.of Tree.emission t) (.of Tree.emission (t.rename f)) :=
    ⟨Tree.ty_rename f t, G.emission L h⟩
  exact .bind (.ite (he.discard.bind fun _ => L.emits _ rfl) (he.valueAs L _ _)) fun _ => L.emits _ rfl

end Emit

/-! ## Defects of the builder -/

namespace Builder

/-- The operation never ends in a defect of the layout. -/
def Plain {α : Type} (x : Except Defect α) : Prop :=
  ∀ d, x = .error d → d.isOfLayout = false

theorem Plain.bind {α β : Type} {x : Except Defect α} {f : α → Except Defect β} (hx : Plain x)
    (hf : ∀ a, Plain (f a)) : Plain (x >>= f) := by
  cases x with
  | error d => exact fun d' h => hx d' (by cases h; rfl)
  | ok a => exact hf a

theorem Plain.of_ok {α : Type} (a : α) : Plain (.ok a : Except Defect α) := fun _ h => by cases h

theorem Plain.of_error {α : Type} {d : Defect} (h : d.isOfLayout = false) : Plain (.error d : Except Defect α) := by
  rintro d' ⟨⟩
  exact h

variable (b : Builder)

theorem plain_apply (i : Instr) : Plain (b.apply i) := by
  unfold apply
  split
  · exact .of_ok _
  · split
    · exact .of_error rfl
    · exact .of_ok _

theorem plain_nest (i : Instr) : Plain (b.nest i) := by
  unfold nest
  split
  · exact .of_ok _
  · split
    · exact .of_error rfl
    · exact .of_ok _
  · exact .of_ok _

theorem plain_emit (i : Instr) : Plain (b.emit i) := by
  unfold emit
  dsimp only
  split
  · exact .of_error (d := .branchEmitted) rfl
  · exact (b.plain_nest i).bind fun b' => (b'.plain_apply i).bind fun _ => .of_ok _

theorem plain_labelState (l : Nat) : Plain (b.labelState l) := by
  unfold labelState
  split
  · exact .of_ok _
  · exact .of_error rfl

theorem plain_merge (l d : Nat) : Plain (b.merge l d) := by
  refine (b.plain_labelState l).bind fun s => ?_
  split
  · split
    · exact .of_ok _
    · exact .of_error rfl
  · exact .of_ok _

theorem plain_mergeCurrent (l : Nat) : Plain (b.mergeCurrent l) := by
  unfold mergeCurrent
  split
  · exact b.plain_merge l _
  · exact .of_ok _

theorem plain_branch (kind : BranchKind) (l : Nat) : Plain (b.branch kind l) :=
  (b.plain_labelState l).bind fun _ => (b.plain_apply _).bind fun b' => (b'.plain_mergeCurrent l).bind fun _ => .of_ok _

theorem plain_mark (l : Nat) : Plain (b.mark l) := by
  refine (b.plain_labelState l).bind fun s => ?_
  dsimp only
  split
  · exact .of_error (d := .markedTwice l) rfl
  · exact (b.plain_mergeCurrent l).bind fun b' => (b'.plain_labelState l).bind fun _ => .of_ok _

theorem plain_markEntry (l d : Nat) : Plain (b.markEntry l d) :=
  (b.plain_merge l d).bind fun b' => b'.plain_mark l

theorem plain_labelPc (l : Nat) : Plain (b.labelPc l) := by
  refine (b.plain_labelState l).bind fun s => ?_
  split
  · exact .of_ok _
  · exact .of_error rfl

theorem plain_finish : Plain b.finish := by
  unfold finish
  split
  · exact .of_error rfl
  · split
    · exact .of_error rfl
    · exact .of_ok _

end Builder

namespace Pairing

/-- One builder on both sides, and refusals of a kind only. -/
def same (R : Refusal → Prop) : Pairing where
  admits _ := True
  code b b' := b = b'
  position _ _ p p' := p = p'
  refused r r' := r = r' ∧ R r

variable {R : Refusal → Prop}

theorem grows_same (b c : Builder) : (same R).Grows b b c c := ⟨rfl, fun _ _ h => h⟩

theorem Ends.eq_of_same {α : Type} {b b' : Builder} {e e' : Except Refusal (α × Builder)}
    (h : (same R).Ends b b' (fun _ _ a a' => a' = a) e e') : e' = e := by
  cases h with
  | ok hg ha => rw [ha, hg.code]
  | error h => rw [h.1]

theorem lawful_same (hu : ∀ u, R (.declined (.unsupported u))) (hd : ∀ d, d.isOfLayout = false → R (.defect d)) :
    (same R).Lawful := by
  have hsteps : ∀ {α : Type} {S : α → α → Prop} {e : Except Defect α}, Builder.Plain e → (∀ a, S a a) →
      Steps (same R).refused S e e := by
    intro α S e he hS
    cases e with
    | ok a => exact .ok (hS a)
    | error d => exact .error ⟨rfl, hd d (he d rfl)⟩
  exact {
    unsupported := fun u => ⟨rfl, hu u⟩
    defect := fun d h => ⟨rfl, hd d h⟩
    depth := by rintro b _ rfl; rfl
    nesting := by rintro b _ rfl; rfl
    pc := by rintro b _ rfl; rfl
    basic := fun _ _ => trivial
    emit := by rintro b _ i rfl -; exact hsteps (b.plain_emit i) (grows_same b)
    branch := by rintro b _ kind l rfl; exact hsteps (b.plain_branch kind l) (grows_same b)
    mark := by rintro b _ l rfl; exact hsteps (b.plain_mark l) (grows_same b)
    markEntry := by rintro b _ l d rfl; exact hsteps (b.plain_markEntry l d) (grows_same b)
    labelPc := by rintro b _ l rfl; exact hsteps (b.plain_labelPc l) fun _ => rfl
    newLabel := by rintro b _ rfl; exact ⟨rfl, grows_same b _⟩
    newLocal := by rintro b _ ty rfl; exact ⟨rfl, grows_same b _⟩
    addHandler := by
      rintro b _ ⟨⟩ ⟨⟩ rfl ⟨⟨⟩, ⟨⟩, ⟨⟩, ⟨⟩, ⟨⟩, ⟨⟩⟩
      exact grows_same b _ }

end Pairing

end ExprCompiler
