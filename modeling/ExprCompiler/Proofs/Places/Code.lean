/-
Straight code over storage. The code of a tree without branches is a list of instructions. From sides that agree, it
runs as a computation of the evaluator does and leaves values on the stack that stand for what the evaluator holds: a
value stands for itself, an address for a place. Rules put such code together; each instruction that reads or writes
storage has its own.
-/
import ExprCompiler.Proofs.Places.Access

namespace ExprCompiler

/-! ## Straight code -/

theorem Builder.Writes.refl (b : Builder) : b.Writes b [] :=
  ⟨by simp, rfl, rfl, by simp, fun _ h => h, rfl, rfl⟩

/-- Straight code has been added, and new locals with it. -/
structure Builder.Lays (b b' : Builder) (is : List Instr) : Prop where
  instrs : b'.instrs.toList = b.instrs.toList ++ is
  handlers : b'.handlers = b.handlers
  locals : b.locals.size ≤ b'.locals.size
  target : ∀ i ∈ is, i.target? = none
  noRet : ∀ i ∈ is, i ≠ .ret
  head : b'.params = b.params ∧ b'.layout = b.layout

namespace Builder.Lays

variable {b b₁ b' : Builder} {is js : List Instr}

theorem refl (b : Builder) : b.Lays b [] := ⟨by simp, rfl, le_rfl, by simp, by simp, rfl, rfl⟩

theorem append (h : b.Lays b₁ is) (h' : b₁.Lays b' js) : b.Lays b' (is ++ js) where
  instrs := by rw [h'.instrs, h.instrs, List.append_assoc]
  handlers := h'.handlers.trans h.handlers
  locals := h.locals.trans h'.locals
  target := List.forall_mem_append.2 ⟨h.target, h'.target⟩
  noRet := List.forall_mem_append.2 ⟨h.noRet, h'.noRet⟩
  head := ⟨h'.head.1.trans h.head.1, h'.head.2.trans h.head.2⟩

theorem unique (h : b.Lays b' is) (h' : b.Lays b' js) : is = js :=
  List.append_cancel_left (h.instrs.symm.trans h'.instrs)

theorem of_writes (h : b.Writes b' is) (hret : ∀ i ∈ is, i ≠ .ret) : b.Lays b' is :=
  ⟨h.instrs, h.handlers, by rw [h.locals], h.target, hret, h.head⟩

theorem newLocal (b : Builder) (ty : Ty) : b.Lays (b.newLocal ty).2 [] :=
  ⟨by simp [Builder.newLocal], rfl, by simp [Builder.newLocal], by simp, by simp, rfl, rfl⟩

/-- The code is in a unit that goes on after it. -/
theorem straight_of_writes {u : CodeUnit} {b'' : Builder} (h : b.Lays b' is) (hw : b'.Writes b'' js)
    (hu : b''.Links u) : u.Straight b.pc is where
  code k i hk := by
    have hlt : k < is.length := (List.getElem?_eq_some_iff.1 hk).1
    refine hu.plain _ _ (.plain ?_ (h.target i (List.mem_of_getElem? hk)))
    rw [← Array.getElem?_toList, hw.instrs, h.instrs, List.getElem?_append_left (by simp [Builder.pc, hlt]),
      List.getElem?_append_right (by simp [Builder.pc])]
    simp [Builder.pc, hk]
  target := h.target
  noRet := h.noRet

theorem straight {u : CodeUnit} (h : b.Lays b' is) (hu : b'.Links u) : u.Straight b.pc is :=
  h.straight_of_writes (.refl b') hu

end Builder.Lays

theorem Tree.emission_node (id : NodeId) (ty : Ty) (s : Shape Tree) :
    (Tree.node id ty s).emission =
      { value := Emit.value id ty (s.map (.of Tree.emission))
        address := Emit.address id ty (s.map (.of Tree.emission))
        assign := Emit.assign ty (s.map (.of Tree.emission)) } := Tree.fold_node _ id ty s

theorem Tree.meaning_node (id : NodeId) (ty : Ty) (s : Shape Tree) :
    (Tree.node id ty s).meaning =
      { value := Eval.value ty (s.map (.of Tree.meaning))
        place := Eval.place ty (s.map (.of Tree.meaning))
        assign := Eval.assign ty (s.map (.of Tree.meaning)) } := Tree.fold_node _ id ty s

instance : Nonempty (Place EvalVar) := ⟨.root (.own 0)⟩

/-! ## What stands on the stack -/

/-- What the evaluator holds while code has something for it on the stack. -/
inductive Item
  | value (v : Value)
  | place (b : Place EvalVar)

/-- What is known of the states of the evaluator and of the values in play, none of which is an address. -/
structure Knowledge where
  state : Activation × World → Prop
  value : Value → Prop
  immediate : ∀ {v}, v.isImmediate = true → value v
  ne_addr : ∀ {v}, value v → ∀ a, v ≠ .addr a

/-- What is known of a place: a value without a home is in play. -/
def Knowledge.place (K : Knowledge) : Place EvalVar → Prop
  | .root (.temp v) => K.value v
  | .field b _ => K.place b
  | _ => True

namespace Sides

variable {S : Sides} {K : Knowledge} {W : Set Nat} {l l' m m' : Nat} {s s' : Frame × World} {t t' : Activation × World}
  {α β γ : Type} {vs base : List Value}

/-- A value on the stack stands for an item. -/
def Stands (S : Sides) (K : Knowledge) (l m : Nat) (s : Frame × World) (t : Activation × World) : Item → Value → Prop
  | .value a, v => v = a ∧ K.value a
  | .place b, v => ∃ a, v = .addr a ∧ S.Denotes l m s t a b ∧ K.place b

/-- Values on the stack stand for items. -/
def Holds (S : Sides) (K : Knowledge) (l m : Nat) (s : Frame × World) (t : Activation × World) :
    List Item → List Value → Prop :=
  List.Forall₂ (S.Stands K l m s t)

theorem Holds.later {xs : List Item} (h : S.Holds K l m s t xs vs) (hl : S.Later W s t s' t')
    (hW : ∀ i ∈ W, l ≤ i → m ≤ i) : S.Holds K l m s' t' xs vs := by
  refine h.imp fun x v hx => ?_
  cases x with
  | value a => exact hx
  | place b =>
    obtain ⟨a, rfl, ha, hb⟩ := hx
    exact ⟨a, rfl, ha.later hl hW, hb⟩

theorem Holds.mono {xs : List Item} (h : S.Holds K l m s t xs vs) (hl : l' ≤ l) (hm : m ≤ m') :
    S.Holds K l' m' s t xs vs := by
  refine h.imp fun x v hx => ?_
  cases x with
  | value a => exact hx
  | place b =>
    obtain ⟨a, rfl, ha, hb⟩ := hx
    exact ⟨a, rfl, ha.mono hl hm, hb⟩

/-- Code comes to what a computation of the evaluator comes to. It leaves values for the items of a result above `base`.
-/
def Ends (S : Sides) (K : Knowledge) (l m : Nat) (base : List Value) (after : α → List Item) (s : Frame × World)
    (t : Activation × World) (r : Except Stop Unit × Frame × World) : Except Stop α × Activation × World → Prop
  | (.ok a, t') => ∃ s' vs, r = (.ok (), s') ∧ S.Later (Set.Ico l m) s t s' t' ∧ K.state t' ∧ s'.1.stack = vs ++ base ∧
      S.Holds K l m s' t' (after a) vs
  | (.error stop, t') => ∃ s', r = (.error stop, s') ∧ S.Later (Set.Ico l m) s t s' t'

/-- The frame has room for the locals that are new from `b` to `b'`, and none of them has a token. -/
def Stage (S : Sides) (b b' : Builder) (s : Frame × World) : Prop :=
  ∀ i, b.locals.size ≤ i → i < b'.locals.size → i < Nat.pow 2 16 ∧ i < s.1.locals.size ∧ S.Free (.localVar i)

/-- Code that is straight and comes to what a computation of the evaluator comes to. It takes values for the items
`before` from the stack and leaves values for the items of the result. -/
structure Codes (S : Sides) (K : Knowledge) (before : List Item) (x : EmitM Unit) (e : EvalM α)
    (after : α → List Item) : Prop where
  lays : ∀ {b b'}, x S.ctx b = .ok ((), b') → ∃ is, b.Lays b' is
  runs : ∀ {b b' is}, x S.ctx b = .ok ((), b') → b.Lays b' is → ∀ {l s t vs base}, l ≤ b.locals.size → S.Agree s t →
    K.state t → S.Stage b b' s → s.1.stack = vs ++ base → S.Holds K l b.locals.size s t before vs →
    S.Ends K l b'.locals.size base after s t (CodeUnit.effects is S.machine s) (e S.eval t)

/-- An instruction that comes to what a computation of the evaluator comes to. -/
def Does (S : Sides) (K : Knowledge) (before : List Item) (i : Instr) (e : EvalM α) (after : α → List Item) : Prop :=
  ∀ {l m s t vs base}, S.Agree s t → K.state t → s.1.stack = vs ++ base → S.Holds K l m s t before vs →
    S.Ends K l m base after s t (MachineM.effect i S.machine s) (e S.eval t)

variable {before : List Item} {x y : EmitM Unit} {e : EvalM α} {after : α → List Item}

/-! ## Sequences -/

theorem Ends.trans {s₁ : Frame × World} {t₁ : Activation × World}
    {r : Except Stop Unit × Frame × World} {r' : Except Stop α × Activation × World}
    (h : S.Later (Set.Ico l m) s t s₁ t₁)
    (h₁ : S.Ends K l m base after s₁ t₁ r r') : S.Ends K l m base after s t r r' := by
  rcases r' with ⟨stop | a, t'⟩
  · obtain ⟨s', hr, hl⟩ := h₁
    exact ⟨s', hr, h.trans hl⟩
  · obtain ⟨s', vs, hr, hl, hk, hst, hh⟩ := h₁
    exact ⟨s', vs, hr, h.trans hl, hk, hst, hh⟩

namespace Codes

theorem bind {g : α → EvalM β} {mid : α → List Item} {after : β → List Item} [Nonempty α]
    (hx : S.Codes K before x e mid) (hy : ∀ a, S.Codes K (mid a) y (g a) after) :
    S.Codes K before (do x; y) (e >>= g) after where
  lays h := by
    obtain ⟨⟨⟩, b₁, h₁, h₂⟩ := EmitM.bind_eq_ok h
    obtain ⟨is, his⟩ := hx.lays h₁
    obtain ⟨js, hjs⟩ := (hy (Classical.arbitrary α)).lays h₂
    exact ⟨is ++ js, his.append hjs⟩
  runs {b b' is} h hlays l s t vs base hle hA hk hstage hst hbefore := by
    obtain ⟨⟨⟩, b₁, h₁, h₂⟩ := EmitM.bind_eq_ok h
    obtain ⟨is₁, hl₁⟩ := hx.lays h₁
    obtain ⟨is₂, hl₂⟩ := (hy (Classical.arbitrary α)).lays h₂
    obtain rfl := hlays.unique (hl₁.append hl₂)
    have hfew : b₁.locals.size ≤ b'.locals.size := hl₂.locals
    have hwider : Set.Ico l b₁.locals.size ⊆ Set.Ico l b'.locals.size := Set.Ico_subset_Ico_right hfew
    have hstage₁ : S.Stage b b₁ s := fun i hi hlt => hstage i hi (hlt.trans_le hfew)
    have hfirst := hx.runs h₁ hl₁ hle hA hk hstage₁ hst hbefore
    rw [CodeUnit.effects_append]
    rcases he : e S.eval t with ⟨stop | a, t₁⟩ <;> rw [he] at hfirst
    · obtain ⟨s₁, hr, hl⟩ := hfirst
      rw [Act.bind_error he, Act.bind_error hr]
      exact ⟨s₁, rfl, hl.mono hwider⟩
    · obtain ⟨s₁, vs₁, hr, hl, hk₁, hst₁, hh⟩ := hfirst
      rw [Act.bind_ok he, Act.bind_ok hr]
      have hstage₂ : S.Stage b₁ b' s₁ := by
        intro i hi hlt
        rw [hl.locals]
        exact hstage i (hl₁.locals.trans hi) hlt
      exact .trans (hl.mono hwider) ((hy a).runs h₂ hl₂ (hle.trans hl₁.locals) hl.agree hk₁ hstage₂ hst₁ hh)

/-- Code that takes nothing from the stack runs above whatever stands there. -/
theorem above (h : S.Codes K [] x e after) (below : List Item) : S.Codes K below x e fun a => after a ++ below where
  lays := h.lays
  runs {b b' is} hx hlays l s t vs base hle hA hk hstage hst hbelow := by
    -- at its own level, the code changes new locals only
    have hrun := h.runs hx hlays le_rfl hA hk hstage (List.nil_append _).symm .nil
    have hnarrow : Set.Ico b.locals.size b'.locals.size ⊆ Set.Ico l b'.locals.size := Set.Ico_subset_Ico_left hle
    rcases he : e S.eval t with ⟨stop | a, t'⟩ <;> rw [he] at hrun
    · obtain ⟨s', hr, hl⟩ := hrun
      exact ⟨s', hr, hl.mono hnarrow⟩
    · obtain ⟨s', us, hr, hl, hk', hst', hh⟩ := hrun
      refine ⟨s', us ++ vs, hr, hl.mono hnarrow, hk', by rw [hst', hst, List.append_assoc], ?_⟩
      have hkept := (hbelow.later hl fun i hi _ => hi.1).mono le_rfl hlays.locals
      exact List.rel_append (hh.mono hle le_rfl) hkept

/-- Code that is another in other words. -/
theorem of_code (h : S.Codes K before y e after) (hxy : ∀ b, x S.ctx b = y S.ctx b) : S.Codes K before x e after where
  lays hx := h.lays ((hxy _).symm.trans hx)
  runs hx := h.runs ((hxy _).symm.trans hx)

theorem of_eval {e' : EvalM α} (h : S.Codes K before x e' after) (hee : ∀ t, e S.eval t = e' S.eval t) :
    S.Codes K before x e after where
  lays := h.lays
  runs {b b' is} hx hlays l s t vs base hle hA hk hstage hst hbefore := by
    rw [hee]
    exact h.runs hx hlays hle hA hk hstage hst hbefore

/-- Where no code is given, nothing is to be shown. -/
theorem of_refused (hx : ∀ b b', x S.ctx b ≠ .ok ((), b')) : S.Codes K before x e after where
  lays h := absurd h (hx _ _)
  runs h := absurd h (hx _ _)

/-- The code of a node whose value is wanted: there is none if the node is void. -/
theorem of_used {id : NodeId} {ty : Ty} {shape : Shape Emitted}
    (h : S.Codes K before (Emit.used id ty shape .value) e after) :
    S.Codes K before (Emit.value id ty shape .value) e after := by
  cases hv : ty.isVoid with
  | true =>
    refine .of_refused fun b b' hx => ?_
    rw [Emit.value, if_pos ⟨rfl, hv⟩] at hx
    cases hx
  | false =>
    refine h.of_code fun b => ?_
    rw [Emit.value, if_neg (by simp [hv])]

/-- A single instruction. -/
theorem instr {i : Instr} (hret : i ≠ .ret) (h : S.Does K before i e after) :
    S.Codes K before (EmitM.emit i) e after where
  lays hx := ⟨[i], .of_writes (EmitM.writes_emit hx) (by simpa using hret)⟩
  runs {b b' is} hx hlays l s t vs base hle hA hk hstage hst hbefore := by
    have hwrites := EmitM.writes_emit hx
    obtain rfl := hlays.unique (.of_writes hwrites (by simpa using hret))
    rw [CodeUnit.effects_one, hwrites.locals]
    exact h hA hk hst hbefore

end Codes

/-- What a computation without a stack of its own comes to on both sides. -/
theorem Meets.split {x : Except Stop γ × Frame × World} {y : Except Stop γ × Activation × World} (hA : S.Agree s t)
    (hm : S.Meets W ({ s.1 with stack := base }, s.2) t x y) :
    ∃ r s' t', x = (r, s') ∧ y = (r, t') ∧ S.Later W s t s' t' ∧ s'.1.stack = base :=
  ⟨x.1, x.2, y.2, rfl, Prod.ext hm.result.symm rfl, (hA.stack base).trans hm.later, hm.stack⟩

/-- What a computation comes to on both sides goes onto the stack. -/
theorem Ends.pushed {c : MachineM γ} {e : EvalM γ} {item : α → Item} (k : γ → Value) (g : γ → α) (hA : S.Agree s t)
    (hm : S.Meets W ({ s.1 with stack := base }, s.2) t (c S.machine ({ s.1 with stack := base }, s.2)) (e S.eval t))
    (hW : W ⊆ Set.Ico l m) (hok : ∀ a s' t', e S.eval t = (.ok a, t') → S.Later W s t s' t' →
      K.state t' ∧ S.Stands K l m s' t' (item (g a)) (k a)) :
    S.Ends K l m base (fun a => [item a]) s t
      ((c >>= fun a => MachineM.push (k a)) S.machine ({ s.1 with stack := base }, s.2))
      ((e >>= fun a => pure (g a)) S.eval t) := by
  obtain ⟨r, s', t', hc, he, hto, hbase⟩ := hm.split hA
  cases r with
  | error stop =>
    rw [Act.bind_error hc, Act.bind_error he]
    exact ⟨s', rfl, hto.mono hW⟩
  | ok a =>
    rw [Act.bind_ok hc, Act.bind_ok he, MachineM.push_apply]
    have hpushed := hto.trans (hto.agree.stack (k a :: s'.1.stack))
    obtain ⟨hk, hstands⟩ := hok a _ t' he hpushed
    exact ⟨_, [k a], rfl, hpushed.mono hW, hk, by simp [hbase], .cons hstands .nil⟩

/-- A value that a computation comes to on both sides goes onto the stack. -/
theorem Ends.value {c : MachineM Value} {e : EvalM Value} (hA : S.Agree s t)
    (hm : S.Meets W ({ s.1 with stack := base }, s.2) t (c S.machine ({ s.1 with stack := base }, s.2)) (e S.eval t))
    (hW : W ⊆ Set.Ico l m) (hok : ∀ a t', e S.eval t = (.ok a, t') → K.state t' ∧ K.value a) :
    S.Ends K l m base (fun a => [.value a]) s t
      ((c >>= MachineM.push) S.machine ({ s.1 with stack := base }, s.2)) (e S.eval t) := by
  have hpushed : S.Ends K l m base (fun a => [.value a]) s t
      ((c >>= fun a => MachineM.push a) S.machine ({ s.1 with stack := base }, s.2))
        ((e >>= fun a => pure a) S.eval t) :=
    .pushed id id hA hm hW fun a s' t' he _ => ⟨(hok a t' he).1, rfl, (hok a t' he).2⟩
  rwa [bind_pure] at hpushed

/-- Both sides throw. -/
theorem Ends.raise (hA : S.Agree s t) (c : Cause) : S.Ends K l m base after s t
    ((Act.raise c : MachineM Unit) S.machine ({ s.1 with stack := base }, s.2)) ((Act.raise c : EvalM α) S.eval t) := by
  have hbase := (hA.stack (W := Set.Ico l m) base).agree
  have hheap : s.2.heap = t.2.heap := hA.heap
  rw [Act.raise_apply, Act.raise_apply]
  simp only [hheap]
  exact ⟨_, rfl, (hA.stack base).trans (hbase.heaps _)⟩

/-- What an operation comes to that may have a cause to throw, if it has none. -/
theorem state_of_settle {r : Except Cause γ} {a : γ}
    (h : (Act.settle r : EvalM γ) S.eval t = (.ok a, t')) : t' = t ∧ r = .ok a := by
  rw [Act.settle_apply] at h
  cases r with
  | ok b =>
    cases h
    exact ⟨rfl, rfl⟩
  | error c => cases h

theorem state_of_attempt {r : Except Failure γ} {a : γ}
    (h : (Act.attempt r : EvalM γ) S.eval t = (.ok a, t')) : t' = t ∧ r = .ok a := by
  rw [Act.attempt_apply] at h
  rcases r with (c | d) | b
  · cases h
  · cases h
  · cases h
    exact ⟨rfl, rfl⟩

/-! ## Variables -/

theorem holds_nil (h : S.Holds K l m s t [] vs) : vs = [] := by
  cases h
  rfl

theorem holds_one {item : Item} (h : S.Holds K l m s t [item] vs) :
    ∃ v, vs = [v] ∧ S.Stands K l m s t item v := by
  obtain ⟨v, vs', hv, hnil, rfl⟩ := List.forall₂_cons_left_iff.1 h
  cases hnil
  exact ⟨v, rfl, hv⟩

theorem holds_two {item item' : Item} (h : S.Holds K l m s t [item, item'] vs) :
    ∃ v v', vs = [v, v'] ∧ S.Stands K l m s t item v ∧ S.Stands K l m s t item' v' := by
  obtain ⟨v, vs', hv, hrest, rfl⟩ := List.forall₂_cons_left_iff.1 h
  obtain ⟨v', rfl, hv'⟩ := holds_one hrest
  exact ⟨v, v', rfl, hv, hv'⟩

end Sides

/-- The checks on an item that is read from a sequence. -/
def Ty.checks (ty : Ty) : List Instr :=
  if ty.isValueType then [.unbox ty] else if ty ≠ .object then [.castClass ty] else []

/-- The instructions that load a variable of a given type. -/
def EmitContext.loads (ctx : EmitContext) (x : FrameVar) (ty : Ty) : List Instr :=
  match x, ctx.layout with
  | .arg i, _ => [.loadArg i]
  | .localVar i, _ => [.loadLocal i]
  | .closure slot, some ⟨_, _, _, .indexed⟩ => .loadItem .indexed slot :: ty.checks
  | .closure slot, _ => [.loadItem .fixed slot]

/-- The instruction that loads the address of a variable. -/
def FrameVar.loadAddr : FrameVar → Instr
  | .arg i => .loadArgAddr i
  | .localVar i => .loadLocalAddr i
  | .closure slot => .loadItemAddr slot

namespace EmitM

variable {ctx : EmitContext} {b b' : Builder} {p : Param} {x : FrameVar}

/-- Where a token is kept does not depend on the code so far. -/
theorem keptIn_of_resolve (h : resolve p ctx b = .ok (x, b')) : b' = b ∧ ctx.KeptIn p x := by
  unfold EmitContext.KeptIn
  simp only [resolve, bind_apply, read_apply] at h ⊢
  rcases hlocal : localOf? ctx.scopes p with _ | i <;> simp only [hlocal] at h ⊢
  · rcases hparam : ctx.params.findIdx? (· == p) with _ | i <;> simp only [hparam] at h ⊢
    · rcases hi : ctx.capture.paramIndex? p with _ | i <;> rcases hl : ctx.layout with _ | layout <;>
        simp only [hi, hl] at h ⊢
      · cases h
      · cases h
      · cases h
      · simp only [bind_apply] at h ⊢
        rcases hs : layout.slot .param i with d | slot <;> rw [hs] at h <;> cases h
        exact ⟨rfl, fun _ => rfl⟩
    · cases h
      exact ⟨rfl, fun _ => rfl⟩
  · cases h
    exact ⟨rfl, fun _ => rfl⟩

theorem writes_loadVarAddr (h : loadVarAddr x ctx b = .ok ((), b')) : b.Writes b' [x.loadAddr] := by
  cases x <;> exact writes_emit h

theorem writes_loadVar {ty : Ty} (h : loadVar x ty ctx b = .ok ((), b')) : b.Writes b' (ctx.loads x ty) := by
  cases x with
  | arg i | localVar i => exact writes_emit h
  | closure slot =>
    have h : loadItem slot ty ctx b = .ok ((), b') := h
    unfold EmitContext.loads
    simp only [loadItem, layout, bind_apply, read_apply] at h
    rcases hl : ctx.layout with _ | ⟨_, _, _, _ | _⟩ <;> rw [hl] at h
    · cases h
    · exact writes_emit h
    · have hchecks : (do
          emit (.loadItem .indexed slot)
          if ty.isValueType then emit (.unbox ty)
          else if ty ≠ Ty.object then emit (.castClass ty)) ctx b = .ok ((), b') := h
      obtain ⟨⟨⟩, b₁, h₁, h₂⟩ := bind_eq_ok hchecks
      have hrest : b₁.Writes b' ty.checks := by
        unfold Ty.checks
        split at h₂
        · rw [if_pos ‹_›]
          exact writes_emit h₂
        · rw [if_neg ‹_›]
          split at h₂
          · rw [if_pos ‹_›]
            exact writes_emit h₂
          · rw [if_neg ‹_›]
            cases h₂
            exact .refl _
      exact (writes_emit h₁).append hrest

end EmitM

theorem Value.unbox_of_hasType {v : Value} {ty : Ty} (h : v.hasType ty = true) : v.unbox ty = .ok v := by
  unfold unbox
  cases hv : v.isNull with
  | false => simp [h]
  | true =>
    obtain rfl : v = .null := by cases v <;> first | rfl | cases hv
    have hadmits : ty.admitsNull = true := by
      cases ty <;> first | rfl | exact h
    simp [hadmits]

theorem Value.castClass_of_hasType {v : Value} {ty : Ty} (h : v.hasType ty = true) : v.castClass ty = .ok v := by
  simp [castClass, h]

namespace Sides

variable {S : Sides} {K : Knowledge} {W : Set Nat} {l m : Nat} {s : Frame × World} {t : Activation × World} {p : Param}
  {x : FrameVar} {v : Value}

theorem Finds.place {y : EvalVar} (h : S.Finds t p y) : K.place (.root y) := by
  rcases finds_iff.1 h with ⟨i, rfl, -⟩ | ⟨i, rfl, -⟩ <;> trivial

/-- A value passes the check that is made where a token is loaded: an item of a sequence has the type of its token. -/
def Admits (S : Sides) (p : Param) (x : FrameVar) (v : Value) : Prop :=
  ∀ slot layout, x = .closure slot → S.ctx.layout = some layout → layout.strategy = .indexed → v.hasType p.ty = true

/-- A value that has the type passes the checks of the type. -/
theorem effects_checks {f : Frame} {w : World} {base : List Value} {ty : Ty} (h : v.hasType ty = true) :
    CodeUnit.effects ty.checks S.machine ({ f with stack := v :: base }, w) =
      (.ok (), { f with stack := v :: base }, w) := by
  unfold Ty.checks
  split
  · rw [CodeUnit.effects_one, MachineM.performs_unary (g := fun v => v.unbox ty) rfl v _ w base rfl,
      Value.unbox_of_hasType h]
    rfl
  · split
    · rw [CodeUnit.effects_one, MachineM.performs_unary (g := fun v => v.castClass ty) rfl v _ w base rfl,
        Value.castClass_of_hasType h]
      rfl
    · rfl

theorem effects_loads (hv : S.stored? s x = some v) (ha : S.Admits p x v) :
    CodeUnit.effects (S.ctx.loads x p.ty) S.machine s = (.ok (), { s.1 with stack := v :: s.1.stack }, s.2) := by
  have hread := read_stored hv
  cases x with
  | arg i | localVar i => exact (congrFun (congrFun (CodeUnit.effects_one _) _) _).trans (Act.bind_ok hread _)
  | closure slot =>
    have hload : ∀ strategy, MachineM.effect (.loadItem strategy slot) S.machine s =
        (.ok (), { s.1 with stack := v :: s.1.stack }, s.2) := fun _ => Act.bind_ok hread _
    rcases hl : S.ctx.layout with _ | ⟨c, ps, ns, _ | _⟩ <;> simp only [EmitContext.loads, hl]
    · rw [CodeUnit.effects_one, hload]
    · rw [CodeUnit.effects_one, hload]
    · rw [CodeUnit.effects_cons, Act.bind_ok (hload _)]
      exact effects_checks (ha slot _ rfl hl rfl)

theorem ret_not_mem_loads (ctx : EmitContext) (x : FrameVar) (ty : Ty) : ∀ i ∈ ctx.loads x ty, i ≠ .ret := by
  unfold EmitContext.loads Ty.checks
  split
  · simp
  · simp
  · split
    · simp
    · split <;> simp
  · simp

namespace Codes

/-- The value of a token. -/
theorem load (hp : ∀ {x}, S.ctx.KeptIn p x → p ∈ S.tokens)
    (hload : ∀ {s t x y v}, S.Agree s t → K.state t → S.ctx.KeptIn p x → S.Finds t p y → S.held? t y = some v →
      K.value v ∧ S.Admits p x v) :
    S.Codes K [] (do EmitM.loadVar (← EmitM.resolve p) p.ty) (do EvalM.access.read (← EvalM.lookup p))
      fun a => [.value a] where
  lays h := by
    obtain ⟨x, b₁, h₁, h₂⟩ := EmitM.bind_eq_ok h
    obtain ⟨rfl, -⟩ := EmitM.keptIn_of_resolve h₁
    exact ⟨_, .of_writes (EmitM.writes_loadVar h₂) (ret_not_mem_loads _ _ _)⟩
  runs {b b' is} h hlays l s t vs base hle hA hk hstage hst hbefore := by
    obtain ⟨x, b₁, h₁, h₂⟩ := EmitM.bind_eq_ok h
    obtain ⟨rfl, hx⟩ := EmitM.keptIn_of_resolve h₁
    have hwrites := EmitM.writes_loadVar h₂
    obtain rfl := hlays.unique (.of_writes hwrites (ret_not_mem_loads _ _ _))
    obtain ⟨x', y, v, hx', hy, hs, ht⟩ := hA.vars p (hp hx)
    obtain rfl := hx.unique hx'
    obtain ⟨hv, hadmits⟩ := hload hA hk hx hy ht
    obtain rfl := holds_nil hbefore
    rw [effects_loads hs hadmits, Act.bind_ok hy, read_held ht]
    exact ⟨_, [v], rfl, hA.stack _, hk, by simp [hst], .cons ⟨rfl, hv⟩ .nil⟩

/-- The place of a token. -/
theorem loadAddr (hp : ∀ {x}, S.ctx.KeptIn p x → p ∈ S.tokens) :
    S.Codes K [] (do EmitM.loadVarAddr (← EmitM.resolve p)) (do return .root (← EvalM.lookup p))
      fun b => [.place b] where
  lays h := by
    obtain ⟨x, b₁, h₁, h₂⟩ := EmitM.bind_eq_ok h
    obtain ⟨rfl, -⟩ := EmitM.keptIn_of_resolve h₁
    exact ⟨_, .of_writes (EmitM.writes_loadVarAddr h₂) (by cases x <;> simp [FrameVar.loadAddr])⟩
  runs {b b' is} h hlays l s t vs base hle hA hk hstage hst hbefore := by
    obtain ⟨x, b₁, h₁, h₂⟩ := EmitM.bind_eq_ok h
    obtain ⟨rfl, hx⟩ := EmitM.keptIn_of_resolve h₁
    obtain rfl := hlays.unique (.of_writes (EmitM.writes_loadVarAddr h₂) (by cases x <;> simp [FrameVar.loadAddr]))
    obtain ⟨x', y, v, hx', hy, -⟩ := hA.vars p (hp hx)
    obtain rfl := hx.unique hx'
    obtain rfl := holds_nil hbefore
    have heffect : MachineM.effect x.loadAddr = MachineM.push (.addr (.root x)) := by cases x <;> rfl
    rw [CodeUnit.effects_one, heffect, MachineM.push_apply, Act.bind_ok hy]
    exact ⟨_, [_], rfl, hA.stack _, hk, by simp [hst], .cons ⟨_, rfl, .token (hp hx) hx hy, hy.place⟩ .nil⟩

/-- An immediate constant. -/
theorem const (hv : v.isImmediate = true) :
    S.Codes K [] (EmitM.emit (.const v)) (pure v) fun a => [.value a] := by
  refine .instr (by simp) fun {l m s t vs base} hA hk hst hbefore => ?_
  obtain rfl := holds_nil hbefore
  rw [show MachineM.effect (.const v) = MachineM.push v from rfl, MachineM.push_apply, Act.pure_apply]
  exact ⟨_, [v], rfl, hA.stack _, hk, by simp [hst], .cons ⟨rfl, K.immediate hv⟩ .nil⟩

/-! ## Places -/

/-- The place of an element. -/
theorem loadElemAddr (array index : Value) :
    S.Codes K [.value index, .value array] (EmitM.emit .loadElemAddr) (do
      let (a, i) ← Act.settle ((← Act.heap).elementAt array index)
      return .element a i) fun b => [.place b] := by
  refine .instr (by simp) fun {l m s t vs base} hA hk hst hbefore => ?_
  obtain ⟨v, v', rfl, ⟨rfl, -⟩, rfl, -⟩ := holds_two hbefore
  have hcode : MachineM.effect .loadElemAddr S.machine s =
      ((do Act.settle ((← Act.heap).elementAt v' v)) >>= fun r : ArrayRef × Nat =>
        MachineM.push (.addr (.element r.1 r.2))) S.machine ({ s.1 with stack := base }, s.2) := by
    show MachineM.loadElemAddr S.machine s = _
    rw [MachineM.loadElemAddr, Act.bind_ok (MachineM.pop_apply hst), Act.bind_ok (MachineM.pop_apply rfl), bind_assoc]
    rfl
  have heval : (do let (a, i) ← Act.settle ((← Act.heap).elementAt v' v); return Place.element a i :
    EvalM (Place EvalVar)) =
      ((do Act.settle ((← Act.heap).elementAt v' v)) >>= fun r => pure (Place.element r.1 r.2)) := by
    rw [bind_assoc]
  have hbase := (hA.stack (W := ∅) base).agree
  rw [hcode, heval]
  refine .pushed _ _ hA (.heap hbase (.settle hbase _)) (Set.empty_subset _) fun r s' t' hr _ => ?_
  rw [Act.bind_ok (Act.heap_apply _ _)] at hr
  obtain ⟨rfl, -⟩ := state_of_settle hr
  exact ⟨hk, _, rfl, .element _ _, trivial⟩

/-- The place of a field of a struct at a place. -/
theorem loadFieldAddr_place (b : Place EvalVar) (i : Nat) :
    S.Codes K [.place b] (EmitM.emit (.loadFieldAddr i)) (pure (.field b i)) fun b => [.place b] := by
  refine .instr (by simp) fun {l m s t vs base} hA hk hst hbefore => ?_
  obtain ⟨v, rfl, a, rfl, ha, hb⟩ := holds_one hbefore
  rw [show MachineM.effect (.loadFieldAddr i) = MachineM.loadFieldAddr i from rfl, MachineM.loadFieldAddr,
    Act.bind_ok (MachineM.pop_apply hst)]
  have ha' := ha.later (hA.stack (W := ∅) (.addr (.field a i) :: base)) (by simp)
  exact ⟨_, [.addr (.field a i)], rfl, hA.stack _, hk, rfl, .cons ⟨_, rfl, .field i ha', hb⟩ .nil⟩

/-- The place of a field of an object. -/
theorem loadFieldAddr_value (v : Value) (i : Nat) :
    S.Codes K [.value v] (EmitM.emit (.loadFieldAddr i)) (Eval.fieldPlace v i) fun b => [.place b] := by
  refine .instr (by simp) fun {l m s t vs base} hA hk hst hbefore => ?_
  obtain ⟨v, rfl, rfl, hv⟩ := holds_one hbefore
  rw [show MachineM.effect (.loadFieldAddr i) = MachineM.loadFieldAddr i from rfl, MachineM.loadFieldAddr,
    Act.bind_ok (MachineM.pop_apply hst)]
  cases v with
  | addr a => exact absurd rfl (K.ne_addr hv a)
  | object o =>
    exact ⟨_, [.addr (.objectField o i)], rfl, hA.stack _, hk, rfl, .cons ⟨_, rfl, .objectField o i, trivial⟩ .nil⟩
  | _ => exact .raise hA _

end Codes

end Sides

end ExprCompiler
