/-
Addresses of structs. A place expression denotes a variable, an element of an array, or a field of an object or of a
struct at another place. The machine forms the address of such a place and updates what is stored there; the evaluator
finds the place and updates it. The two come to the same, whatever the update does, and leave the same variables and the
same heap.
-/
import ExprCompiler.Proofs.Places.Code
import ExprCompiler.Proofs.Tree.Tokens

namespace ExprCompiler

/-- An operand of a place expression: an immediate constant, or a token with `P`. -/
inductive Tree.IsOperand (P : Param → Prop) : Tree → Prop
  | constant {id : NodeId} {ty : Ty} {v : Value} (hv : v.isImmediate = true) : IsOperand P (.node id ty (.constant v))
  | parameter {id : NodeId} {ty : Ty} {p : Param} (hp : P p) : IsOperand P (.node id ty (.parameter p))

/-- A place expression. Arrays, indices and the receivers that are no structs are operands. -/
inductive Tree.IsPlace (P : Param → Prop) : Tree → Prop
  | parameter {id : NodeId} {ty : Ty} {p : Param} : IsPlace P (.node id ty (.parameter p))
  | element {id : NodeId} {ty : Ty} {array index : Tree} (ha : array.IsOperand P) (hi : index.IsOperand P) :
    IsPlace P (.node id ty (.arrayIndex array index))
  | field {id : NodeId} {ty : Ty} {r : Tree} {c : Class} {i : Nat} (hs : r.ty.isStruct = true) (h : r.IsPlace P) :
    IsPlace P (.node id ty (.member (some r) (.field c i)))
  | objectField {id : NodeId} {ty : Ty} {r : Tree} {c : Class} {i : Nat} (hs : r.ty.isStruct = false)
    (h : r.IsOperand P) : IsPlace P (.node id ty (.member (some r) (.field c i)))

namespace Sides

variable {S : Sides} {K : Knowledge} {P : Param → Prop} {t : Tree}

/-- A token can be loaded: it holds no address, and has its type if loading it checks that. -/
def Loads (S : Sides) (s : Frame × World) (p : Param) : Prop :=
  ∀ x v, S.ctx.KeptIn p x → S.stored? s x = some v → (∀ a, v ≠ .addr a) ∧ S.Admits p x v

/-- In states that are known of, the tokens of a kind can be loaded. -/
def Loadable (S : Sides) (K : Knowledge) (P : Param → Prop) : Prop :=
  ∀ p ∈ S.tokens, P p → ∀ {s t x y v}, S.Agree s t → K.state t → S.ctx.KeptIn p x → S.Finds t p y →
    S.held? t y = some v → K.value v ∧ S.Admits p x v

theorem codes_operand (ht : t.IsOperand P) (hP : S.Loadable K P) (htokens : ∀ p ∈ t.free, p ∈ S.tokens) :
    S.Codes K [] (Emitted.value (.of Tree.emission t)) (Evaluated.value (.of Tree.meaning t)) fun a => [.value a] := by
  simp only [Emitted.value, Evaluated.value, Tree.Child.meaning_of]
  cases ht with
  | constant hv =>
    rw [Tree.emission_node, Tree.meaning_node]
    refine .of_used (.of_code (.const hv) fun b => ?_)
    simp [Shape.map, Emit.used, Emit.produce, Emit.constant, hv]
  | @parameter id ty p hp =>
    rw [Tree.emission_node, Tree.meaning_node]
    have hmem : p ∈ S.tokens := htokens p (by rw [Tree.free_node]; simp [Shape.tokens])
    exact .of_used (.load (fun _ => hmem) (hP p hmem hp))

/-- The address of a place expression stands for the place that the evaluator finds. -/
theorem codes_address (ht : t.IsPlace P) (hP : S.Loadable K P) (htokens : ∀ p ∈ t.free, p ∈ S.tokens) :
    S.Codes K [] t.emission.address t.meaning.place fun b => [.place b] := by
  induction ht with
  | @parameter id ty p =>
    rw [Tree.emission_node, Tree.meaning_node]
    have hmem : p ∈ S.tokens := htokens p (by rw [Tree.free_node]; simp [Shape.tokens])
    exact .loadAddr fun _ => hmem
  | @element id ty array index ha hi =>
    rw [Tree.emission_node, Tree.meaning_node]
    have harray := codes_operand ha hP fun p hp => htokens p (by
      rw [Tree.free_node]
      simp [Shape.tokens, Shape.enclosed, Shape.children, hp])
    have hindex := codes_operand hi hP fun p hp => htokens p (by
      rw [Tree.free_node]
      simp [Shape.tokens, Shape.enclosed, Shape.children, hp])
    exact harray.bind fun a => (hindex.above [.value a]).bind fun i => .loadElemAddr a i
  | @field id ty r c i hs h ih =>
    rw [Tree.emission_node, Tree.meaning_node]
    have hr := ih fun p hp => htokens p (by
      rw [Tree.free_node]
      simp [Shape.tokens, Shape.enclosed, Shape.children, hp])
    simp only [Shape.map, Option.map_some, Emit.address, Eval.place, Emitted.receiver, Tree.Child.ty_of, hs, if_true,
      Tree.Child.meaning_of]
    exact hr.bind fun b => .loadFieldAddr_place b i
  | @objectField id ty r c i hs h =>
    rw [Tree.emission_node, Tree.meaning_node]
    have hr := codes_operand h hP fun p hp => htokens p (by
      rw [Tree.free_node]
      simp [Shape.tokens, Shape.enclosed, Shape.children, hp])
    simp only [Shape.map, Option.map_some, Emit.address, Eval.place, Emitted.receiver, Tree.Child.ty_of, hs,
      Bool.false_eq_true, if_false]
    exact hr.bind fun v => .loadFieldAddr_value v i

end Sides

/-- While an address is formed, the state of the evaluator stays as it is. -/
def Knowledge.still (r : Activation × World) : Knowledge where
  state t := t = r
  value v := ∀ a, v ≠ .addr a
  immediate {v} hv a := by
    rintro rfl
    cases hv
  ne_addr h := h

namespace Tree

variable {P : Param → Prop} {t : Tree} {ctx : EmitContext} {b b' : Builder}

theorem IsOperand.writes (ht : t.IsOperand P) (h : Emitted.value (.of Tree.emission t) ctx b = .ok ((), b')) :
    b'.locals = b.locals := by
  simp only [Emitted.value, Child.meaning_of] at h
  cases ht with
  | constant hv =>
    rw [emission_node] at h
    simp only [Emit.value] at h
    split at h
    · cases h
    · simp only [Shape.map, Emit.used, Emit.produce, Emit.constant, hv, if_true] at h
      exact (EmitM.writes_emit h).locals
  | parameter hp =>
    rw [emission_node] at h
    simp only [Emit.value] at h
    split at h
    · cases h
    · simp only [Shape.map, Emit.used, if_true] at h
      obtain ⟨x, b₁, h₁, h₂⟩ := EmitM.bind_eq_ok h
      obtain ⟨rfl, -⟩ := EmitM.keptIn_of_resolve h₁
      exact (EmitM.writes_loadVar h₂).locals

/-- The address of a place expression is formed without new locals. -/
theorem IsPlace.locals (ht : t.IsPlace P) (h : t.emission.address ctx b = .ok ((), b')) : b'.locals = b.locals := by
  induction ht generalizing b b' with
  | parameter =>
    rw [emission_node] at h
    obtain ⟨x, b₁, h₁, h₂⟩ := EmitM.bind_eq_ok h
    obtain ⟨rfl, -⟩ := EmitM.keptIn_of_resolve h₁
    exact (EmitM.writes_loadVarAddr h₂).locals
  | element ha hi =>
    rw [emission_node] at h
    obtain ⟨⟨⟩, b₁, h₁, h⟩ := EmitM.bind_eq_ok h
    obtain ⟨⟨⟩, b₂, h₂, h₃⟩ := EmitM.bind_eq_ok h
    exact ((EmitM.writes_emit h₃).locals.trans (hi.writes h₂)).trans (ha.writes h₁)
  | field hs _ ih =>
    rw [emission_node] at h
    simp only [Shape.map, Option.map_some, Emit.address, Emitted.receiver, Child.ty_of, hs, if_true,
      Child.meaning_of] at h
    obtain ⟨⟨⟩, b₁, h₁, h₂⟩ := EmitM.bind_eq_ok h
    exact (EmitM.writes_emit h₂).locals.trans (ih h₁)
  | objectField hs ho =>
    rw [emission_node] at h
    simp only [Shape.map, Option.map_some, Emit.address, Emitted.receiver, Child.ty_of, hs, Bool.false_eq_true,
      if_false] at h
    obtain ⟨⟨⟩, b₁, h₁, h₂⟩ := EmitM.bind_eq_ok h
    exact (EmitM.writes_emit h₂).locals.trans (ho.writes h₁)

/-- Access through addresses and through places coincides. The code that forms the address of a place expression is
straight; to run it and to update what is at the address comes to what the evaluator's update of the place comes to: the
same result, exception or defect, the same values of all variables and the same heap. The update may be any operation on
the stored value and the heap. The tokens may be kept in arguments, locals and closure items; those that are loaded hold
no address, and have their types if they are items of a sequence. -/
theorem address_update_agrees {S : Sides} {s : Frame × World} {r : Activation × World} (hA : S.Agree s r)
    (ht : t.IsPlace (S.Loads s)) (htokens : ∀ p ∈ t.free, p ∈ S.tokens)
    (hcode : t.emission.address S.ctx b = .ok ((), b')) :
    ∃ is, b.Lays b' is ∧ (∀ u, b'.Links u → u.Straight b.pc is) ∧
      ∀ {α : Type} (f : Value → Heap → (Value × Except Stop α) × Heap), ∃ result s' r',
        (do
          CodeUnit.effects is
          MachineM.withReceiver (← MachineM.pop) fun v => Act.allocate (f v)) S.machine s = (result, s') ∧
        (do (← t.meaning.place).update EvalM.access fun v => Act.allocate (f v)) S.eval r = (result, r') ∧
        S.Later ∅ s r s' r' := by
  have hload : S.Loadable (.still r) (S.Loads s) := by
    rintro p hp hloads s' _ x y v - rfl hx hy hv
    obtain ⟨x', y', v', hx', hy', hs, ht⟩ := hA.vars p hp
    obtain rfl := hx.unique hx'
    obtain rfl := hy.unique hy'
    obtain rfl : v = v' := Option.some.inj (hv.symm.trans ht)
    exact hloads x v hx hs
  have hcodes := Sides.codes_address ht hload htokens
  have hlocals : b'.locals = b.locals := ht.locals hcode
  obtain ⟨is, hlays⟩ := hcodes.lays hcode
  refine ⟨is, hlays, fun u hu => hlays.straight hu, fun f => ?_⟩
  have hstage : S.Stage b b' s := fun i hi hlt => absurd hlt (by rw [hlocals]; omega)
  have hends := hcodes.runs hcode hlays le_rfl hA rfl hstage (List.nil_append _).symm .nil
  rw [hlocals] at hends
  have hnone : Set.Ico b.locals.size b.locals.size = ∅ := Set.Ico_self _
  rcases he : t.meaning.place S.eval r with ⟨stop | q, r'⟩ <;> rw [he] at hends
  · obtain ⟨s', hrun, hl⟩ := hends
    exact ⟨.error stop, s', r', Act.bind_error hrun _, Act.bind_error he _, hnone ▸ hl⟩
  · obtain ⟨s', vs, hrun, hl, -, hst, hh⟩ := hends
    obtain ⟨v, rfl, a, rfl, ha, -⟩ := Sides.holds_one hh
    -- the address is taken from the stack, and what is there is updated
    have hpop := hl.agree.stack (W := ∅) s.1.stack
    have hupdate := (ha.later hpop (by simp)).update hpop.agree fun v s₁ r₁ h₁ => .allocate h₁.agree (f v)
    rcases hM : a.update MachineM.access (fun v => Act.allocate (f v)) S.machine
      ({ s'.1 with stack := s.1.stack }, s'.2) with ⟨result, s''⟩
    rcases hE : q.update EvalM.access (fun v => Act.allocate (f v)) S.eval r' with ⟨result', r''⟩
    rw [hM, hE, hnone] at hupdate
    rw [hnone] at hl
    obtain rfl : result = result' := hupdate.result
    refine ⟨result, s'', r'', ?_, (Act.bind_ok he _).trans hE, (hl.trans hpop).trans hupdate.later⟩
    exact (Act.bind_ok hrun _).trans ((Act.bind_ok (MachineM.pop_apply hst) _).trans hM)

/-! ## Captured storage -/

/-- A struct with a count. -/
def tally : Class := .mk 0 "Tally" true none [.mk "count" (.int .i32)]

/-- A struct that holds a tally. -/
def ledger : Class := .mk 1 "Ledger" true none [.mk "tally" (.cls tally)]

def ledgers : Param := ⟨0, "ledgers", .array (.cls ledger)⟩

def which : Param := ⟨1, "which", .int .i32⟩

/-- The tally of one of the ledgers. -/
def chosenTally : Tree :=
  .node 3 (.cls tally) (.member (some (.node 2 (.cls ledger) (.arrayIndex (.node 0 ledgers.ty (.parameter ledgers))
    (.node 1 which.ty (.parameter which))))) (.field ledger 0))

/-- The context of code whose closure is a sequence of the two tokens. -/
def capturingContext : EmitContext where
  operators := []
  params := []
  capture := { params := [ledgers, which] }
  layout := some ⟨[], [ledgers.ty, which.ty], [], .indexed⟩

theorem keptIn_ledgers : capturingContext.KeptIn ledgers (.closure 0) := fun _ => rfl

theorem keptIn_which : capturingContext.KeptIn which (.closure 1) := fun _ => rfl

/-- A unit with that closure, and a lambda that has captured the two tokens. -/
def capturing : Sides where
  ctx := capturingContext
  machine := ⟨⟨[], fun _ call h => .finish call.receiver (.ok .null) h⟩, fun _ _ w => (.ok .null, w), some ⟨0⟩⟩
  eval := ⟨⟨[], fun _ call h => .finish call.receiver (.ok .null) h⟩, fun _ _ w => (.ok .null, w), some ⟨0⟩, []⟩
  tokens := [ledgers, which]
  apart := by
    intro p hp q hq x hx hy
    rcases List.mem_pair.1 hp with rfl | rfl <;> rcases List.mem_pair.1 hq with rfl | rfl
    · rfl
    · cases (keptIn_ledgers.unique hx).trans (hy.unique keptIn_which)
    · cases (keptIn_which.unique hx).trans (hy.unique keptIn_ledgers)
    · rfl

/-- A world with one ledger. The closure and the lambda hold the array and `index`. -/
def capturingWorld (index : Value) : World where
  heap := { arrays := #[#[.struct ledger [.struct tally [.i32 1]]]] }
  closures := #[⟨.indexed, #[.array ⟨0, .cls ledger⟩, index]⟩]
  lambdas := #[⟨none, [], chosenTally, #[(ledgers, .array ⟨0, .cls ledger⟩), (which, index)]⟩]

theorem agree_capturing (f : Frame) (index : Value) :
    capturing.Agree (f, capturingWorld index) (#[], capturingWorld index) where
  heap := rfl
  vars p hp := by
    rcases List.mem_pair.1 hp with rfl | rfl
    · exact ⟨_, .captured 0, _, keptIn_ledgers, rfl, rfl, rfl⟩
    · exact ⟨_, .captured 1, _, keptIn_which, rfl, rfl, rfl⟩

theorem tokens_chosenTally : ∀ p ∈ chosenTally.free, p ∈ capturing.tokens := by
  simp [chosenTally, free_node, Shape.tokens, Shape.enclosed, Shape.children, capturing]

/-- Puts another tally in the place of one, which is the result. -/
def exchange (v : Value) (h : Heap) : (Value × Except Stop Value) × Heap :=
  ((.struct tally [.i32 9], .ok v), h)

theorem address_update_agrees_captured :
    let start := Emit.start "" [] .void none
    ∃ b' is s' r', chosenTally.emission.address capturing.ctx start = .ok ((), b') ∧ start.Lays b' is ∧
      (do
        CodeUnit.effects is
        MachineM.withReceiver (← MachineM.pop) fun v => Act.allocate (exchange v)) capturing.machine
          (⟨#[], #[], [], []⟩, capturingWorld (.i32 0)) = (.ok (.struct tally [.i32 1]), s') ∧
      (do (← chosenTally.meaning.place).update EvalM.access fun v => Act.allocate (exchange v)) capturing.eval
          (#[], capturingWorld (.i32 0)) = (.ok (.struct tally [.i32 1]), r') ∧
      s'.2.heap = r'.2.heap ∧ r'.2.heap.arrays = #[#[.struct ledger [.struct tally [.i32 9]]]] := by
  intro start
  obtain ⟨b', hcode⟩ : ∃ b', chosenTally.emission.address capturing.ctx start = .ok ((), b') := ⟨_, rfl⟩
  have hplace : chosenTally.IsPlace (capturing.Loads (⟨#[], #[], [], []⟩, capturingWorld (.i32 0))) := by
    refine .field rfl (.element (.parameter ?_) (.parameter ?_))
    · intro x v hx hv
      cases keptIn_ledgers.unique hx
      cases hv
      exact ⟨nofun, fun _ _ _ _ _ => by decide⟩
    · intro x v hx hv
      cases keptIn_which.unique hx
      cases hv
      exact ⟨nofun, fun _ _ _ _ _ => by decide⟩
  have hrun : (do (← chosenTally.meaning.place).update EvalM.access fun v => Act.allocate (exchange v)) capturing.eval
      (#[], capturingWorld (.i32 0)) = (.ok (.struct tally [.i32 1]), #[],
        { capturingWorld (.i32 0) with heap := { arrays := #[#[.struct ledger [.struct tally [.i32 9]]]] } }) := rfl
  have hagree := agree_capturing ⟨#[], #[], [], []⟩ (.i32 0)
  obtain ⟨is, hlays, -, hupdate⟩ := address_update_agrees hagree hplace tokens_chosenTally hcode
  obtain ⟨result, s', r', hM, hE, hl⟩ := hupdate exchange
  obtain ⟨rfl, rfl⟩ := Prod.mk.inj (hrun.symm.trans hE)
  exact ⟨b', is, s', _, hcode, hlays, hM, hE, hl.agree.heap, rfl⟩

/-- Items of a sequence are checked when they are loaded, variables that a lambda has captured are not: an index of
another integer type is refused by the machine alone. -/
theorem address_checks_items :
    let start := Emit.start "" [] .void none
    let w := capturingWorld (.int ⟨.i64, 0⟩)
    capturing.Agree (⟨#[], #[], [], []⟩, w) (#[], w) ∧ ∃ b' is s' r' e,
      chosenTally.emission.address capturing.ctx start = .ok ((), b') ∧ start.Lays b' is ∧
      (do
        CodeUnit.effects is
        MachineM.withReceiver (← MachineM.pop) fun v => Act.allocate (exchange v)) capturing.machine
          (⟨#[], #[], [], []⟩, w) = (.error (.thrown e), s') ∧
      (do (← chosenTally.meaning.place).update EvalM.access fun v => Act.allocate (exchange v)) capturing.eval
          (#[], w) = (.ok (.struct tally [.i32 1]), r') := by
  refine ⟨agree_capturing _ _, _, [.loadItem .indexed 0, .castClass ledgers.ty, .loadItem .indexed 1, .unbox which.ty,
    .loadElemAddr, .loadFieldAddr 0], _, _, _, rfl, ⟨rfl, rfl, by decide, by decide, by simp, rfl, rfl⟩, rfl, rfl⟩

end Tree

end ExprCompiler
