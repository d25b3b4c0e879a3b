/-
Storage seen from two sides. A token is kept in an argument, a local or a closure item of a machine frame, and in a
variable of an activation or one that the running lambda has captured. The two sides agree if tokens hold the same
values over the same heap. Reading and writing at places that denote the same storage comes to the same on both sides,
and the sides go on to agree.
-/
import ExprCompiler.Proofs.Simulation.Variables

namespace ExprCompiler

namespace EvalM

theorem name_of_position? {vars : Activation} {p : Param} {i : Nat} (h : position? vars p = some i) :
    vars[i]?.map Prod.fst = some p := by
  simpa using List.find?_some h

/-- Positions depend on the names of the variables only. -/
theorem position?_congr {vars vars' : Activation} (h : vars'.map Prod.fst = vars.map Prod.fst) (p : Param) :
    position? vars' p = position? vars p := by
  have hsize : vars'.size = vars.size := by simpa using congrArg Array.size h
  have hname : ∀ i : Nat, vars'[i]?.map Prod.fst = vars[i]?.map Prod.fst := by
    intro i
    rw [← Array.getElem?_map, ← Array.getElem?_map, h]
  unfold position?
  simp only [hsize, hname]

theorem setValue_self {vars : Activation} {i : Nat} {v : Value} (h : (vars[i]?.map Prod.snd).isSome) :
    (setValue vars i v)[i]?.map Prod.snd = some v := by
  have hi : i < vars.size := by simpa using h
  rw [setValue, Array.getElem?_modify, if_pos rfl]
  simp [hi]

theorem setValue_ne {vars : Activation} {i j : Nat} (v : Value) (h : j ≠ i) : (setValue vars i v)[j]? = vars[j]? := by
  simp [setValue, Array.getElem?_modify, Ne.symm h]

end EvalM

theorem Frame.locals_size_setVar {f : Frame} {x : FrameVar} {v : Value} :
    (f.setVar x v).locals.size = f.locals.size := by
  cases x <;> simp [setVar]

theorem Frame.stack_setVar {f : Frame} {x : FrameVar} {v : Value} : (f.setVar x v).stack = f.stack := by
  cases x <;> rfl

/-- A token is kept in a variable of the frame. -/
def EmitContext.KeptIn (ctx : EmitContext) (p : Param) (x : FrameVar) : Prop :=
  ∀ b, EmitM.resolve p ctx b = .ok (x, b)

theorem EmitContext.KeptIn.unique {ctx : EmitContext} {p : Param} {x y : FrameVar} (h : ctx.KeptIn p x)
    (h' : ctx.KeptIn p y) : x = y := by
  have heq := (h (Emit.start "" [] .void none)).symm.trans (h' _)
  cases heq
  rfl

/-- The surroundings of a machine and of an evaluator that run the same code, and the tokens that the code uses, which
are kept apart. -/
structure Sides where
  ctx : EmitContext
  machine : FrameContext
  eval : EvalContext
  tokens : List Param
  apart : ∀ p ∈ tokens, ∀ q ∈ tokens, ∀ x, ctx.KeptIn p x → ctx.KeptIn q x → p = q

namespace Sides

variable (S : Sides)

/-- What a variable of the frame holds. -/
def stored? (s : Frame × World) : FrameVar → Option Value
  | .arg i => s.1.args[i]?
  | .localVar i => s.1.locals[i]?
  | .closure slot => S.machine.closure.bind fun c => (s.2.closure c).items[slot]?

/-- What a variable of the activation holds. -/
def held? (t : Activation × World) : EvalVar → Option Value
  | .own i => t.1[i]?.map Prod.snd
  | .captured i => (EvalM.capturedBy t.2 S.eval.self)[i]?.map Prod.snd
  | .temp v => some v

/-- The evaluator finds a token in a variable. -/
def Finds (t : Activation × World) (p : Param) (y : EvalVar) : Prop :=
  EvalM.lookup p S.eval t = (.ok y, t)

/-- No token is kept in a variable of the frame. -/
def Free (x : FrameVar) : Prop :=
  ∀ p ∈ S.tokens, ¬ S.ctx.KeptIn p x

/-- The tokens hold the same values on both sides, over the same heap. -/
structure Agree (s : Frame × World) (t : Activation × World) : Prop where
  heap : s.2.heap = t.2.heap
  vars : ∀ p ∈ S.tokens, ∃ x y v, S.ctx.KeptIn p x ∧ S.Finds t p y ∧ S.stored? s x = some v ∧ S.held? t y = some v

/-- The sides still agree, and nothing else has changed: tokens stay where they are, the variables of the frame that
have no token keep their values, except for the locals of `W`, and without a closure or a running lambda the world
has changed in the heap only. -/
structure Later (W : Set Nat) (s : Frame × World) (t : Activation × World) (s' : Frame × World)
    (t' : Activation × World) : Prop where
  agree : S.Agree s' t'
  finds : ∀ p y, S.Finds t p y → S.Finds t' p y
  kept : ∀ x, S.Free x → (∀ i, x = .localVar i → i ∉ W) → S.stored? s' x = S.stored? s x
  locals : s'.1.locals.size = s.1.locals.size
  machine : S.machine.closure = none → s'.2 = { s.2 with heap := s'.2.heap }
  eval : S.eval.self = none → t'.2 = { t.2 with heap := t'.2.heap }

variable {S} {W W' : Set Nat} {s s' s'' : Frame × World} {t t' t'' : Activation × World} {p q : Param} {x : FrameVar}
    {y : EvalVar}
  {v : Value}

namespace Later

theorem refl (h : S.Agree s t) : S.Later W s t s t where
  agree := h
  finds _ _ hp := hp
  kept _ _ _ := rfl
  locals := rfl
  machine _ := rfl
  eval _ := rfl

theorem trans (h : S.Later W s t s' t') (h' : S.Later W s' t' s'' t'') : S.Later W s t s'' t'' where
  agree := h'.agree
  finds p y hp := h'.finds p y (h.finds p y hp)
  kept x hx hn := (h'.kept x hx hn).trans (h.kept x hx hn)
  locals := h'.locals.trans h.locals
  machine hc := by rw [h'.machine hc, h.machine hc]
  eval hs := by rw [h'.eval hs, h.eval hs]

theorem mono (h : S.Later W s t s' t') (hW : W ⊆ W') : S.Later W' s t s' t' :=
  { h with kept := fun x hx hn => h.kept x hx fun i hi hmem => hn i hi (hW hmem) }

end Later

/-! ## Tokens -/

theorem finds_iff : S.Finds t p y ↔ (∃ i, y = .own i ∧ EvalM.position? t.1 p = some i) ∨
    ∃ i, y = .captured i ∧ EvalM.position? t.1 p = none ∧
      EvalM.position? (EvalM.capturedBy t.2 S.eval.self) p = some i := by
  unfold Finds
  rw [EvalM.lookup, Act.bind_ok (Act.own_apply _ _)]
  rcases hown : EvalM.position? t.1 p with _ | i
  · simp only
    rw [Act.bind_ok (Act.world_apply _ _), Act.bind_ok (Act.read_apply _ _)]
    rcases hcap : EvalM.position? (EvalM.capturedBy t.2 S.eval.self) p with _ | i
    · refine iff_of_false (fun h => ?_) (by simp)
      cases congrArg Prod.fst ((Act.raise_apply _ S.eval t).symm.trans h)
    · constructor
      · rintro ⟨⟩
        exact .inr ⟨i, rfl, trivial, rfl⟩
      · rintro (⟨j, -, ⟨⟩⟩ | ⟨j, rfl, -, ⟨⟩⟩)
        rfl
  · constructor
    · rintro ⟨⟩
      exact .inl ⟨i, rfl, rfl⟩
    · rintro (⟨j, rfl, ⟨⟩⟩ | ⟨j, -, ⟨⟩, -⟩)
      rfl

theorem Finds.unique {z : EvalVar} (h : S.Finds t p y) (h' : S.Finds t p z) : y = z := by
  unfold Finds at h h'
  rw [h] at h'
  cases h'
  rfl

/-- Different tokens are found in different variables. -/
theorem Finds.inj (h : S.Finds t p y) (h' : S.Finds t q y) : p = q := by
  rw [finds_iff] at h h'
  rcases h with ⟨i, rfl, hi⟩ | ⟨i, rfl, -, hi⟩
  · rcases h' with ⟨j, hij, hj⟩ | ⟨j, hij, -⟩
    · cases hij
      exact Option.some.inj ((EvalM.name_of_position? hi).symm.trans (EvalM.name_of_position? hj))
    · cases hij
  · rcases h' with ⟨j, hij, -⟩ | ⟨j, hij, -, hj⟩
    · cases hij
    · cases hij
      exact Option.some.inj ((EvalM.name_of_position? hi).symm.trans (EvalM.name_of_position? hj))

/-! ## Variables -/

/-- The state after a store into a variable of the frame. -/
def store (S : Sides) (s : Frame × World) (x : FrameVar) (v : Value) : Frame × World :=
  match x, S.machine.closure with
  | .closure slot, some c =>
    (s.1, s.2.setClosure c { s.2.closure c with items := (s.2.closure c).items.setIfInBounds slot v })
  | x, _ => (s.1.setVar x v, s.2)

/-- The state after a store into a variable of the activation. -/
def hold (S : Sides) (t : Activation × World) (y : EvalVar) (v : Value) : Activation × World :=
  match y, S.eval.self with
  | .own i, _ => (EvalM.setValue t.1 i v, t.2)
  | .captured i, some l =>
    (t.1, { t.2 with lambdas := t.2.lambdas.modify l.id fun lambda =>
      { lambda with captured := EvalM.setValue lambda.captured i v } })
  | _, _ => t

theorem read_stored (h : S.stored? s x = some v) : MachineM.access.read x S.machine s = (.ok v, s) := by
  cases x with
  | arg i =>
    show (do MachineM.entry (← Act.own).args i : MachineM Value) S.machine s = _
    rw [Act.bind_ok (Act.own_apply _ _), MachineM.entry, show s.1.args[i]? = some v from h]
    rfl
  | localVar i =>
    show (do MachineM.entry (← Act.own).locals i : MachineM Value) S.machine s = _
    rw [Act.bind_ok (Act.own_apply _ _), MachineM.entry, show s.1.locals[i]? = some v from h]
    rfl
  | closure slot =>
    obtain ⟨c, hc, hv⟩ := Option.bind_eq_some_iff.1 (show S.machine.closure.bind _ = some v from h)
    have href : MachineM.closureRef S.machine s = (.ok c, s) := by
      rw [MachineM.closureRef, Act.bind_ok (Act.read_apply _ _), hc]
      rfl
    show MachineM.loadItem slot S.machine s = _
    rw [MachineM.loadItem, Act.bind_ok href, Act.bind_ok (Act.world_apply _ _), Closure.get, hv]
    rfl

theorem write_stored (h : (S.stored? s x).isSome) (v : Value) :
    MachineM.access.write x v S.machine s = (.ok (), S.store s x v) := by
  obtain ⟨u, hu⟩ := Option.isSome_iff_exists.1 h
  cases x with
  | arg i =>
    have hi : i < s.1.args.size := (Array.getElem?_eq_some_iff.1 hu).1
    show MachineM.storeArg i v S.machine s = _
    rw [MachineM.storeArg, Act.bind_ok (Act.own_apply _ _), if_pos hi]
    rfl
  | localVar i =>
    have hi : i < s.1.locals.size := (Array.getElem?_eq_some_iff.1 hu).1
    show MachineM.storeLocal i v S.machine s = _
    rw [MachineM.storeLocal, Act.bind_ok (Act.own_apply _ _), if_pos hi]
    rfl
  | closure slot =>
    obtain ⟨c, hc, hv⟩ := Option.bind_eq_some_iff.1 (show S.machine.closure.bind _ = some u from hu)
    have href : MachineM.closureRef S.machine s = (.ok c, s) := by
      rw [MachineM.closureRef, Act.bind_ok (Act.read_apply _ _), hc]
      rfl
    have hi : slot < (s.2.closure c).items.size := (Array.getElem?_eq_some_iff.1 hv).1
    show MachineM.storeItem slot v S.machine s = _
    rw [MachineM.storeItem, Act.bind_ok href, Act.bind_ok (Act.world_apply _ _), Closure.set, if_pos hi]
    simp only [store, hc]
    rfl

theorem read_held (h : S.held? t y = some v) : EvalM.access.read y S.eval t = (.ok v, t) := by
  cases y with
  | own i =>
    show (Except.ok (EvalM.valueAt t.1 i), t) = _
    rw [EvalM.valueAt, show t.1[i]?.map Prod.snd = some v from h]
    rfl
  | captured i =>
    show (Except.ok (EvalM.valueAt (EvalM.capturedBy t.2 S.eval.self) i), t) = _
    rw [EvalM.valueAt, show (EvalM.capturedBy t.2 S.eval.self)[i]?.map Prod.snd = some v from h]
    rfl
  | temp u =>
    cases h
    rfl

theorem write_held (y : EvalVar) (v : Value) : EvalM.access.write y v S.eval t = (.ok (), S.hold t y v) := by
  cases y with
  | own i | temp u => rfl
  | captured i =>
    unfold EvalM.access hold
    dsimp only
    rw [Act.bind_ok (Act.read_apply _ _)]
    rcases S.eval.self with _ | l <;> rfl

theorem stored?_store_self (h : (S.stored? s x).isSome) : S.stored? (S.store s x v) x = some v := by
  obtain ⟨u, hu⟩ := Option.isSome_iff_exists.1 h
  cases x with
  | arg i =>
    have hi : i < s.1.args.size := (Array.getElem?_eq_some_iff.1 hu).1
    simp [store, stored?, Frame.setVar, hi]
  | localVar i =>
    have hi : i < s.1.locals.size := (Array.getElem?_eq_some_iff.1 hu).1
    simp [store, stored?, Frame.setVar, hi]
  | closure slot =>
    obtain ⟨c, hc, hv⟩ := Option.bind_eq_some_iff.1 (show S.machine.closure.bind _ = some u from hu)
    have hi : slot < (s.2.closure c).items.size := (Array.getElem?_eq_some_iff.1 hv).1
    have hlt : c.id < s.2.closures.size := by
      by_contra hge
      rw [World.closure, Array.getElem?_eq_none (by omega)] at hi
      simp at hi
    simp only [store, stored?, hc, Option.bind_some, World.closure, World.setClosure]
    rw [Array.getElem?_setIfInBounds_self_of_lt hlt]
    have hi : slot < (s.2.closures[c.id]?.getD ⟨.indexed, #[]⟩).items.size := hi
    simp [hi]

theorem stored?_store_ne {z : FrameVar} (h : z ≠ x) : S.stored? (S.store s x v) z = S.stored? s z := by
  cases x with
  | arg i =>
    cases z with
    | arg j => exact Array.getElem?_setIfInBounds_ne fun hij => h (by rw [hij])
    | localVar j | closure j => rfl
  | localVar i =>
    cases z with
    | arg j | closure j => rfl
    | localVar j => exact Array.getElem?_setIfInBounds_ne fun hij => h (by rw [hij])
  | closure slot =>
    unfold store
    rcases hc : S.machine.closure with _ | c
    · cases z with
      | arg j | localVar j | closure j => rfl
    · cases z with
      | arg j | localVar j => rfl
      | closure j =>
        have hne : slot ≠ j := fun hij => h (by rw [hij])
        simp only [stored?, hc, Option.bind_some, World.closure, World.setClosure]
        by_cases hlt : c.id < s.2.closures.size
        · rw [Array.getElem?_setIfInBounds_self_of_lt hlt]
          exact Array.getElem?_setIfInBounds_ne hne
        · rw [Array.setIfInBounds, dif_neg hlt]

theorem capturedBy_modify {w : World} {l : LambdaRef} (g : Lambda → Lambda) :
    EvalM.capturedBy { w with lambdas := w.lambdas.modify l.id g } (some l) =
      ((w.lambda? l).map fun lambda => (g lambda).captured).getD #[] := by
  simp only [EvalM.capturedBy, Option.bind_some, World.lambda?, Array.getElem?_modify, if_true, Option.map_map]
  rfl

theorem held?_hold_self (h : S.Finds t p y) (hv : (S.held? t y).isSome) : S.held? (S.hold t y v) y = some v := by
  rcases finds_iff.1 h with ⟨i, rfl, -⟩ | ⟨i, rfl, -, hi⟩
  · exact EvalM.setValue_self hv
  · unfold held? at hv ⊢
    unfold hold
    rcases hl : S.eval.self with _ | l <;> rw [hl] at hv
    · simp [EvalM.capturedBy] at hv
    · simp only [capturedBy_modify]
      simp only [EvalM.capturedBy, Option.bind_some] at hv
      rcases hlambda : t.2.lambda? l with _ | lambda <;> rw [hlambda] at hv
      · simp at hv
      · exact EvalM.setValue_self hv

theorem held?_hold_ne {z : EvalVar} (h : z ≠ y) : S.held? (S.hold t y v) z = S.held? t z := by
  cases y with
  | own i =>
    cases z with
    | own j =>
      have hij : j ≠ i := fun hij => h (by rw [hij])
      exact congrArg (Option.map Prod.snd) (EvalM.setValue_ne v hij)
    | captured j | temp u => rfl
  | captured i =>
    unfold hold
    rcases hl : S.eval.self with _ | l
    · rfl
    · cases z with
      | own j | temp u => rfl
      | captured j =>
        have hij : j ≠ i := fun hij => h (by rw [hij])
        simp only [held?, hl, capturedBy_modify]
        simp only [EvalM.capturedBy, Option.bind_some]
        rcases t.2.lambda? l with _ | lambda
        · rfl
        · exact congrArg (Option.map Prod.snd) (EvalM.setValue_ne v hij)
  | temp u => rfl

/-- A store leaves tokens where they are. -/
theorem Finds.hold {z : EvalVar} (h : S.Finds t p y) : S.Finds (S.hold t z v) p y := by
  have hown : ∀ q, EvalM.position? (S.hold t z v).1 q = EvalM.position? t.1 q := by
    intro q
    refine EvalM.position?_congr ?_ q
    unfold Sides.hold
    split
    · exact EvalM.map_fst_setValue _ _ _
    · rfl
    · rfl
  have hcap : ∀ q, EvalM.position? (EvalM.capturedBy (S.hold t z v).2 S.eval.self) q =
      EvalM.position? (EvalM.capturedBy t.2 S.eval.self) q := by
    intro q
    refine EvalM.position?_congr ?_ q
    unfold Sides.hold
    split
    · rfl
    · rename_i i l hl
      rw [hl]
      simp only [capturedBy_modify]
      simp only [EvalM.capturedBy, Option.bind_some]
      rcases t.2.lambda? l with _ | lambda
      · rfl
      · exact EvalM.map_fst_setValue _ _ _
    · rfl
  rw [finds_iff] at h ⊢
  simpa only [hown, hcap] using h

theorem Finds.heap {heap : Heap} (h : S.Finds t p y) : S.Finds (t.1, { t.2 with heap := heap }) p y := by
  rw [finds_iff] at h ⊢
  exact h

theorem heap_store : (S.store s x v).2.heap = s.2.heap := by
  unfold store
  split <;> rfl

theorem heap_hold : (S.hold t y v).2.heap = t.2.heap := by
  unfold hold
  split <;> rfl

theorem locals_size_store : (S.store s x v).1.locals.size = s.1.locals.size := by
  unfold store
  split
  · rfl
  · exact Frame.locals_size_setVar

theorem stack_store : (S.store s x v).1.stack = s.1.stack := by
  unfold store
  split
  · rfl
  · exact Frame.stack_setVar

/-- Without a closure, a store into the frame leaves the world alone. -/
theorem world_store (h : S.machine.closure = none) : (S.store s x v).2 = s.2 := by
  unfold store
  rw [h]
  cases x <;> rfl

theorem world_hold (h : S.eval.self = none) : (S.hold t y v).2 = t.2 := by
  unfold hold
  rw [h]
  cases y <;> rfl

/-! ## Changes on both sides -/

/-- A token gets a new value on both sides. -/
theorem Agree.write (h : S.Agree s t) (hp : p ∈ S.tokens) (hx : S.ctx.KeptIn p x) (hy : S.Finds t p y) (v : Value) :
    S.Later W s t (S.store s x v) (S.hold t y v) where
  agree := by
    refine ⟨by rw [heap_store, heap_hold, h.heap], fun q hq => ?_⟩
    obtain ⟨xq, yq, u, hxq, hyq, hsq, htq⟩ := h.vars q hq
    by_cases hpq : p = q
    · subst hpq
      obtain rfl := hx.unique hxq
      obtain rfl := hy.unique hyq
      exact ⟨x, y, v, hx, hy.hold, stored?_store_self (by rw [hsq]; rfl), held?_hold_self hy (by rw [htq]; rfl)⟩
    · have hxne : xq ≠ x := fun heq => hpq (S.apart p hp q hq x hx (heq ▸ hxq))
      have hyne : yq ≠ y := fun heq => hpq (hy.inj (heq ▸ hyq))
      exact ⟨xq, yq, u, hxq, hyq.hold, (stored?_store_ne hxne).trans hsq, (held?_hold_ne hyne).trans htq⟩
  finds _ _ hq := hq.hold
  kept z hz _ := stored?_store_ne fun hzx => hz p hp (hzx ▸ hx)
  locals := locals_size_store
  machine hc := by rw [heap_store, world_store hc]
  eval hs := by rw [heap_hold, world_hold hs]

/-- A local without a token gets a new value in the frame. -/
theorem Agree.writeLocal {i : Nat} (h : S.Agree s t) (hfree : S.Free (.localVar i)) (hi : i ∈ W) (v : Value) :
    S.Later W s t (S.store s (.localVar i) v) t where
  agree := by
    refine ⟨by rw [heap_store, h.heap], fun q hq => ?_⟩
    obtain ⟨xq, yq, u, hxq, hyq, hsq, htq⟩ := h.vars q hq
    have hxne : xq ≠ .localVar i := fun heq => hfree q hq (heq ▸ hxq)
    exact ⟨xq, yq, u, hxq, hyq, (stored?_store_ne hxne).trans hsq, htq⟩
  finds _ _ hq := hq
  kept z _ hz := stored?_store_ne fun hzx => hz i hzx hi
  locals := locals_size_store
  machine hc := by rw [heap_store, world_store hc]
  eval _ := rfl

/-- The heap changes in the same way on both sides. -/
theorem Agree.heaps (h : S.Agree s t) (heap : Heap) :
    S.Later W s t (s.1, { s.2 with heap := heap }) (t.1, { t.2 with heap := heap }) where
  agree := ⟨rfl, fun q hq => by
    obtain ⟨x, y, v, hx, hy, hs, ht⟩ := h.vars q hq
    exact ⟨x, y, v, hx, hy.heap, by rw [← hs]; cases x <;> rfl, by rw [← ht]; cases y <;> rfl⟩⟩
  finds _ _ hq := hq.heap
  kept z _ _ := by cases z <;> rfl
  locals := rfl
  machine _ := rfl
  eval _ := rfl

/-- The stack has no part in the agreement. -/
theorem Agree.stack (h : S.Agree s t) (stack : List Value) :
    S.Later W s t ({ s.1 with stack := stack }, s.2) t where
  agree := ⟨h.heap, fun q hq => by
    obtain ⟨xq, yq, u, hxq, hyq, hsq, htq⟩ := h.vars q hq
    exact ⟨xq, yq, u, hxq, hyq, by rw [← hsq]; cases xq <;> rfl, htq⟩⟩
  finds _ _ hq := hq
  kept z _ _ := by cases z <;> rfl
  locals := rfl
  machine _ := rfl
  eval _ := rfl

end Sides

end ExprCompiler
