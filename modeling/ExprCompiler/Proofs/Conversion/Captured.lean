/-
Captured variables. The machine that runs the unit of a function is next to the evaluator that runs the function's
twin; what the unit keeps in its closure, the instance keeps among the variables that it has copied. Loads and
stores of closure items agree with reads and writes of those.
-/
import ExprCompiler.Proofs.Compile.Discipline
import ExprCompiler.Proofs.Conversion.Twins
import ExprCompiler.Proofs.Simulation.Nodes
import ExprCompiler.Proofs.Simulation.Units

namespace ExprCompiler

/-! ## Units of twins -/

theorem ArithForm.choose?_i32 (op : ArithOp) (checked : Bool) :
    ∃ mode, ∀ table, choose? table op (.int .i32) (.int .i32) checked none = some (.builtin mode) := by
  cases op <;> exact ⟨_, fun _ => rfl⟩

theorem CompareForm.choose?_of_isScalar {ty : Ty} (h : ty.isScalar = true) (table : Overloads) (op : CmpOp) :
    choose? table op ty ty none = some .builtin := by
  unfold Ty.isScalar at h
  split at h <;> first | rfl | cases h

theorem Ty.isVoid_of_isSimple {ty : Ty} (h : ty.isSimple = true) : ty.isVoid = false := by
  cases ty <;> first | rfl | cases h

theorem Tree.SimplyTyped.wellFormed {t : Tree} (h : t.SimplyTyped) (operators : Overloads) :
    t.WellFormed operators := by
  induction t using Tree.induct with
  | node id ty s ih =>
    refine Tree.all_node.2 ⟨?_, fun c hc => ih c hc (h.children c hc)⟩
    obtain ⟨hty, hs⟩ := h.root
    have hvoid := Ty.isVoid_of_isSimple hty
    cases s with
    | arith op l r checked m =>
      obtain ⟨rfl, hl, hr, -⟩ := hs
      obtain ⟨mode, hform⟩ := ArithForm.choose?_i32 op checked
      simp only [Shape.WellFormed, hl, hr, hform]
      exact hvoid
    | compare op l r m =>
      obtain ⟨rfl, hl, hr, -⟩ := hs
      simp only [Shape.WellFormed, hr, CompareForm.choose?_of_isScalar hl]
      exact hvoid
    | logical op l r => exact hvoid
    | constant _ | parameter _ | lambda _ _ _ | invoke _ _ | cond _ _ _ | block _ _ | assign _ _ => trivial
    | _ => exact hs.elim

theorem Capture.Compiled.coherent {c : Compiler} {root : Tree} {units : Array CodeUnit} {capture : Capture}
    (h : capture.Compiled c root units) : capture.Coherent := by
  intro n hn child u l hchild hart
  cases h.nested n hn with
  | @record _ _ _ _ _ _ cap =>
    dsimp only at hchild hart
    cases hempty : cap.isEmpty with
    | true => simp [hempty] at hchild
    | false =>
      simp only [hempty, Bool.false_eq_true, if_false, Option.some.injEq] at hchild
      subst hchild
      simp only [layout?, hempty, Bool.false_eq_true, if_false, Artifact.ofLayout, Artifact.curryable.injEq] at hart
      rw [← hart.2, Capture.size_layout]

/-- What is known about the unit of a twin at its start. -/
def Twin.start (C : Converted) (t : Twin) : EmitContext where
  operators := C.compiler.operators
  params := t.params
  capture := t.capture
  layout := t.capture.layout? C.limit

/-- The unit of a twin. -/
structure Twin.HasUnit (C : Converted) (t : Twin) (u : CodeUnit) : Prop where
  linked : C.units[t.unit.id]? = some u
  code : ∃ b b' D D', Emit.UnitCode (t.start C) t.body t.body.ty (t.name.getD "lambda") u b b' D D'
  small : u.Small

theorem Twin.Made.hasUnit {C : Converted} {t : Twin} (h : t.Made C) : ∃ u, t.HasUnit C u := by
  obtain ⟨u, native, hunit, hlinked, hnative⟩ := h.linked.code
  obtain rfl := hnative C.plain
  have hself : u = { u with native := none } := by rw [← CompileM.native_of_unit hunit]
  rw [← hself] at hlinked
  have htyped : t.body.SimplyTyped := Tree.All.inside C.typed h.occurs
  have hcode := Emit.unit_inv (Emit.emits_result (htyped.wellFormed _) ⟨rfl, h.captures.coherent⟩ t.body.ty) hunit
  exact ⟨u, hlinked, hcode, C.small u (Array.mem_of_getElem? hlinked)⟩

/-- The layout of a twin's closure: variables first, then lambdas, all at 16-bit positions. -/
theorem Twin.Made.slot {C : Converted} {t : Twin} (h : t.Made C) {l : Layout} (hl : t.capture.layout? C.limit = some l)
    {kind : ItemKind} {i slot : Nat} (hslot : l.slot kind i = .ok slot) :
    slot = l.base kind + i ∧ l.base .param = 0 ∧ l.base .nested = t.capture.params.length := by
  obtain ⟨u, -, ⟨b, b', D, D', hcode⟩, hsmall⟩ := h.hasUnit
  have hsize : l.size < Nat.pow 2 16 := hsmall.items l (by rw [hcode.head.2.2]; exact hl)
  unfold Capture.layout? at hl
  split at hl
  · cases hl
  · cases hl
    have hconstants := C.no_constants h.captures
    unfold Layout.slot at hslot
    split at hslot
    · rename_i hi
      cases hslot
      refine ⟨Nat.mod_eq_of_lt ?_, ?_, ?_⟩
      · cases kind <;>
          simp [Capture.layout, Layout.ofTypes, Layout.count, Layout.base, Layout.size, Layout.itemTypes]
            at hi hsize ⊢ <;>
          omega
      · simp [Capture.layout, Layout.ofTypes, Layout.base, hconstants]
      · simp [Capture.layout, Layout.ofTypes, Layout.base, hconstants]
    · cases hslot

/-! ## Both sides at work -/

/-- A value was found to have another type than the one declared for it. -/
def Stop.failsCheck : Stop → Bool
  | .thrown v => v.exceptionClass? == some Class.invalidCast.name
  | _ => false

/-- What surrounds two functions that are called together. -/
structure Surroundings (C : Converted) where
  lib : Library
  /-- Calls of the machine. -/
  machine : Invoker
  /-- Calls of the evaluator. -/
  eval : Invoker
  machineExcused : Stop → Prop
  evalExcused : Stop → Prop
  /-- Where calls need not be typed, nothing is said of a failed check. -/
  checks : ¬C.strict → ∀ stop : Stop, stop.failsCheck = true → machineExcused stop

/-- The machine at a twin's unit stands for the evaluator at the twin's instance. -/
def Converted.bridge (C : Converted) (S : Surroundings C) (t : Twin) : Bridge where
  Stage := Set Twin
  value := Stands C
  value_mono hκ h := h.mono hκ
  world κ w wE := t ∈ κ ∧ C.Paired κ w wE
  thrown _ := False
  ends κ stop w stop' wE := ∃ v, stop = .thrown v ∧ stop' = .thrown v ∧ t ∈ κ ∧ C.Paired κ w wE
  machine := ⟨S.lib, S.machine, t.closure⟩
  eval handling := ⟨S.lib, S.eval, some t.lambda, handling⟩
  meaning := Tree.meaning
  machineExcused := S.machineExcused
  evalExcused := S.evalExcused

/-- The surroundings of a node in the unit of a twin. -/
structure Twin.Within (C : Converted) (t : Twin) (ctx : EmitContext) : Prop where
  made : t.Made C
  capture : ctx.capture = t.capture
  layout : ctx.layout = t.capture.layout? C.limit

theorem Twin.Within.enter {C : Converted} {t : Twin} {ctx : EmitContext} (h : t.Within C ctx)
    (scope : List (Param × Nat)) (hidden : List Nat) : t.Within C (ctx.enter scope hidden) :=
  ⟨h.made, h.capture, h.layout⟩

variable {C : Converted} {κ : Set Twin} {t : Twin} {w wE : World} {ctx : EmitContext} {p : Param}

theorem Capture.isEmpty_of_index {capture : Capture} {i : Nat} (h : capture.paramIndex? p = some i) :
    capture.isEmpty = false := by
  have := Capture.index_lt h
  refine beq_eq_false_iff_ne.2 ?_
  unfold size
  omega

theorem Twin.Made.closure_of_index (h : t.Made C) {i : Nat} (hi : t.capture.paramIndex? p = some i) :
    ∃ r, t.closure = some r := by
  refine Option.isSome_iff_exists.1 ?_
  rw [h.closure, Capture.isEmpty_of_index hi]
  rfl

/-- A captured variable on both sides. -/
structure Twin.Captured (C : Converted) (κ : Set Twin) (t : Twin) (w wE : World) (p : Param) (i : Nat) (r : ClosureRef)
    (v a : Value) : Prop where
  closure : t.closure = some r
  item : (w.closure r).get i = .ok v
  variable_ : Innermost (EvalM.capturedBy wE (some t.lambda)).toList p a (t.position p)
  stands : Stands C κ p.ty v a

theorem Converted.Paired.captured (h : C.Paired κ w wE) (ht : t ∈ κ) {i : Nat} (hi : t.capture.paramIndex? p = some i) :
    ∃ r v a, t.Captured C κ w wE p i r v a := by
  have hheld := h.held t ht
  obtain ⟨captured, hl, htokens, hitems⟩ := hheld.lambda
  obtain ⟨r, hr⟩ := hheld.made.closure_of_index hi
  obtain ⟨c, hc, hitems⟩ := hitems r hr
  obtain ⟨v, a, j, hv, ha, hstands⟩ := hitems.params i p hi
  refine ⟨r, v, a, hr, ?_, ?_, hstands⟩
  · simp [World.closure, hc, Closure.get, hv]
  · rw [t.position_eq htokens ha, EvalM.capturedBy, Option.bind_some, hl]
    exact ha

/-- Where the item of a captured variable is. -/
theorem Twin.Within.slot (h : t.Within C ctx) {slot : Nat} (hcap : ctx.Captures p slot) :
    t.capture.paramIndex? p = some slot ∧ ctx.layout = some (t.capture.layout C.limit) := by
  obtain ⟨i, l, hi, hl, hslot⟩ := hcap.item
  rw [h.capture] at hi
  have hlayout := h.layout
  rw [Capture.layout?, Capture.isEmpty_of_index hi, if_neg (by simp)] at hlayout
  rw [h.layout] at hl
  obtain ⟨rfl, hbase, -⟩ := h.made.slot hl hslot
  rw [hbase, Nat.zero_add]
  exact ⟨hi, hlayout⟩

/-! ## Items -/

/-- What the checks behind the load of an item make of it. -/
def Value.asItem (v : Value) (strategy : Strategy) (ty : Ty) : Except Cause Value :=
  match strategy with
  | .fixed => .ok v
  | .indexed => if ty.isValueType then v.unbox ty else if ty ≠ .object then v.castClass ty else .ok v

/-- A value other than null passes the checks, or is found to have another type. -/
theorem Value.asItem_cases {v : Value} (hnull : v.isNull = false) (s : Strategy) (ty : Ty) :
    v.asItem s ty = .ok v ∨ v.hasType ty = false ∧ v.asItem s ty = .error (.invalidCast v ty) := by
  cases s with
  | fixed => exact .inl rfl
  | indexed => grind [asItem, unbox, castClass]

/-- Only numbers and truth values may fail a check, and only where calls need not be typed. -/
theorem Stands.asItem {ty : Ty} {v a : Value} (h : Stands C κ ty v a) (s : Strategy) :
    v.asItem s ty = .ok v ∨ ¬C.strict ∧ v.asItem s ty = .error (.invalidCast v ty) := by
  cases h with
  | scalar hv hty =>
    have hnull : v.isNull = false := by rcases Value.isScalar_cases hv with ⟨n, rfl⟩ | ⟨b, rfl⟩ <;> rfl
    refine (Value.asItem_cases hnull s ty).imp_right fun ⟨hfalse, herror⟩ => ⟨fun hstrict => ?_, herror⟩
    rw [hty hstrict] at hfalse
    cases hfalse
  | null | function _ => cases s <;> exact .inl rfl

/-- The instructions that load an item. -/
def Emit.itemInstrs (strategy : Strategy) (slot : Nat) (ty : Ty) : List Instr :=
  match strategy with
  | .fixed => [.loadItem .fixed slot]
  | .indexed => .loadItem .indexed slot ::
    if ty.isValueType then [.unbox ty] else if ty ≠ .object then [.castClass ty] else []

theorem Emit.loadItem_eq {l : Layout} (hl : ctx.layout = some l) (slot : Nat) (ty : Ty) (b : Builder) :
    EmitM.loadItem slot ty ctx b = ((itemInstrs l.strategy slot ty).forM EmitM.emit) ctx b := by
  have hlayout : EmitM.layout ctx b = .ok (l, b) := by
    rw [EmitM.layout, EmitM.bind_apply, EmitM.read_apply]
    simp only [hl]
    rfl
  rw [EmitM.loadItem, EmitM.bind_apply, hlayout]
  rcases hs : l.strategy <;> simp only [hs, itemInstrs]
  · exact congrFun (congrFun (bind_pure_unit (x := EmitM.emit _)).symm ctx) b
  · have hchecks :
        (do if ty.isValueType then EmitM.emit (.unbox ty) else if ty ≠ .object then EmitM.emit (.castClass ty)) =
        (if ty.isValueType then [Instr.unbox ty] else if ty ≠ .object then [.castClass ty] else []).forM
          EmitM.emit := by
      split
      · exact bind_pure_unit.symm
      · split
        · exact bind_pure_unit.symm
        · rfl
    exact congrFun (congrFun (congrArg (EmitM.emit (.loadItem .indexed slot) >>= ·) (funext fun _ => hchecks)) ctx) b

namespace MachineM

variable {fc : FrameContext} {f : Frame} {r : ClosureRef} {slot : Nat} {v : Value}

theorem effect_loadItem (hr : fc.closure = some r) (hv : (w.closure r).get slot = .ok v) (s : Strategy) :
    effect (.loadItem s slot) fc (f, w) = (.ok (), { f with stack := v :: f.stack }, w) := by
  have hload : loadItem slot fc (f, w) = (.ok v, f, w) := by
    have hclosure : closureRef fc (f, w) = (.ok r, f, w) := by
      rw [closureRef, Act.bind_ok (Act.read_apply fc (f, w))]
      simp only [hr]
      rfl
    rw [loadItem, Act.bind_ok hclosure, Act.bind_ok (Act.world_apply fc (f, w)), hv]
    rfl
  rw [effect, Act.bind_ok hload, push_apply]

/-- An item is loaded and checked. -/
theorem effects_itemInstrs (hr : fc.closure = some r) (hv : (w.closure r).get slot = .ok v) (s : Strategy) (ty : Ty) :
    CodeUnit.effects (Emit.itemInstrs s slot ty) fc (f, w) =
      resumed f f.stack (fun u => [u]) (w.settled (v.asItem s ty)) := by
  have hcheck : ∀ {i : Instr} {g : Value → Except Cause Value}, effect i = unary g →
      CodeUnit.effects [i] fc ({ f with stack := v :: f.stack }, w) = resumed f f.stack (fun u => [u])
        (w.settled (g v)) := by
    intro i g hi
    rw [CodeUnit.effects_one, performs_unary hi v { f with stack := v :: f.stack } w f.stack rfl]
    dsimp only
    rcases w.settled (g v) with ⟨stop | u, w'⟩ <;> rfl
  cases s with
  | fixed =>
    rw [Emit.itemInstrs, CodeUnit.effects_one]
    exact effect_loadItem hr hv .fixed
  | indexed =>
    rw [Emit.itemInstrs, CodeUnit.effects_cons, Act.bind_ok (effect_loadItem hr hv .indexed), Value.asItem]
    split
    · exact hcheck (i := .unbox ty) (g := (·.unbox ty)) rfl
    · split
      · exact hcheck (i := .castClass ty) (g := (·.castClass ty)) rfl
      · rfl

/-- What a store into the frame's closure comes to. -/
def storedItem (r : ClosureRef) (slot : Nat) (v : Value) (w : World) : Except Stop Unit × World :=
  match (w.closure r).set slot v with
  | .ok c => (.ok (), w.setClosure r c)
  | .error d => (.error (.defect d), w)

theorem performs_storeItem (hr : fc.closure = some r) (s : Strategy) (slot : Nat) (v : Value) :
    Performs fc (.storeItem s slot) [v] (storedItem r slot v) fun _ => [] := by
  intro f w base hst
  have hst : f.stack = v :: base := hst
  have hclosure : closureRef fc ({ f with stack := base }, w) = (.ok r, { f with stack := base }, w) := by
    rw [closureRef, Act.bind_ok (Act.read_apply fc _)]
    simp only [hr]
    rfl
  rw [effect, Act.bind_ok (pop_apply hst), storeItem, Act.bind_ok hclosure, Act.bind_ok (Act.world_apply fc _),
    storedItem]
  rcases (w.closure r).set slot v with d | c <;> rfl

end MachineM

/-! ## Code that only loads -/

theorem EmitM.forM_emit_append (is js : List Instr) :
    (is ++ js).forM emit = is.forM emit >>= fun _ => js.forM emit :=
  List.forM_append

/-- Instructions put values onto the stack, the last one on top, and do nothing else. -/
def CodeUnit.Loads (fc : FrameContext) (f : Frame) (w : World) (is : List Instr) (vs : List Value) : Prop :=
  ∀ stack, effects is fc ({ f with stack := stack }, w) = (.ok (), { f with stack := vs.reverse ++ stack }, w)

theorem CodeUnit.Loads.run {fc : FrameContext} {f : Frame} {is : List Instr} {vs base : List Value}
    (h : Loads fc f w is vs) (hstack : f.stack = base) :
    effects is fc (f, w) = (.ok (), { f with stack := vs.reverse ++ base }, w) := by
  subst hstack
  exact h f.stack

theorem CodeUnit.Loads.append {fc : FrameContext} {f : Frame} {is js : List Instr} {us vs : List Value}
    (hi : Loads fc f w is us) (hj : Loads fc f w js vs) : Loads fc f w (is ++ js) (us ++ vs) := by
  intro stack
  rw [effects_append, Act.bind_ok (hi stack), hj, List.reverse_append, List.append_assoc]

namespace Bridge

variable {B : Bridge} {x y : EmitM Unit} {α : Type} {n : Nat}

/-- Instructions stop, above whatever is on the stack, in a way of which nothing is said. -/
def Halts (B : Bridge) (f : Frame) (w : World) (is : List Instr) : Prop :=
  ∃ stop, B.machineExcused stop ∧ ∀ stack, (CodeUnit.effects is B.machine ({ f with stack := stack }, w)).1 =
    .error stop

/-- What follows is not reached. -/
theorem Halts.append {f : Frame} {w : World} {is : List Instr} (h : B.Halts f w is) (js : List Instr) :
    B.Halts f w (is ++ js) := by
  obtain ⟨stop, hM, hstop⟩ := h
  refine ⟨stop, hM, fun stack => ?_⟩
  have hfirst := hstop stack
  rw [CodeUnit.effects_append]
  rcases hr : CodeUnit.effects is B.machine ({ f with stack := stack }, w) with ⟨r, s⟩
  rw [hr] at hfirst
  cases hfirst
  rw [Act.bind_error hr]

theorem Halts.after_loads {f : Frame} {w : World} {is js : List Instr} {vs : List Value} (h : B.Halts f w js)
    (hi : CodeUnit.Loads B.machine f w is vs) : B.Halts f w (is ++ js) := by
  obtain ⟨stop, hM, hstop⟩ := h
  refine ⟨stop, hM, fun stack => ?_⟩
  rw [CodeUnit.effects_append, Act.bind_ok (hi stack)]
  exact hstop _

/-- The values that the code of a generator puts onto the stack, in each state that corresponds to one of the
evaluator. -/
def Puts (B : Bridge) (ctx : EmitContext) (x : EmitM Unit) (Q : B.Stage → Activation → World → List Value → Prop) :
    Prop :=
  ∀ b b', x ctx b = .ok ((), b') → ∃ is : List Instr, (is.forM EmitM.emit) ctx b = .ok ((), b') ∧
    (∀ i ∈ is, i ≠ .ret ∧ i.endsFlow = false) ∧
    ∀ κ handling f vars w wE, B.Corresponds ctx κ handling f vars → B.world κ w wE →
      B.Halts f w is ∨ ∃ vs, CodeUnit.Loads B.machine f w is vs ∧ Q κ vars wE vs

namespace Puts

theorem mono {Q R : B.Stage → Activation → World → List Value → Prop} (hx : Puts B ctx x Q)
    (h : ∀ κ vars wE vs, Q κ vars wE vs → R κ vars wE vs) : Puts B ctx x R := by
  intro b b' hrun
  obtain ⟨is, his, hplain, hputs⟩ := hx b b' hrun
  refine ⟨is, his, hplain, fun κ handling f vars w wE hcorr hw => ?_⟩
  exact (hputs κ handling f vars w wE hcorr hw).imp_right fun ⟨vs, hvs, hq⟩ => ⟨vs, hvs, h κ vars wE vs hq⟩

theorem nothing : Puts B ctx (pure ()) fun _ _ _ vs => vs = [] := by
  rintro b b' ⟨⟩
  exact ⟨[], rfl, by simp, fun κ handling f vars w wE _ _ => .inr ⟨[], fun _ => rfl, rfl⟩⟩

theorem bind {Q R : B.Stage → Activation → World → List Value → Prop} (hx : Puts B ctx x Q) (hy : Puts B ctx y R) :
    Puts B ctx (do x; y) fun κ vars wE vs => ∃ us ws, vs = us ++ ws ∧ Q κ vars wE us ∧ R κ vars wE ws := by
  intro b b' hxy
  obtain ⟨⟨⟩, b₁, hx₁, hy₁⟩ := EmitM.bind_eq_ok hxy
  obtain ⟨is, his, hplain, hputs⟩ := hx b b₁ hx₁
  obtain ⟨js, hjs, hplain', hputs'⟩ := hy b₁ b' hy₁
  refine ⟨is ++ js, ?_, List.forall_mem_append.2 ⟨hplain, hplain'⟩, fun κ handling f vars w wE hcorr hw => ?_⟩
  · rw [EmitM.forM_emit_append, EmitM.bind_apply, his]
    exact hjs
  · rcases hputs κ handling f vars w wE hcorr hw with hhalts | ⟨us, hus, hq⟩
    · exact .inl (hhalts.append js)
    rcases hputs' κ handling f vars w wE hcorr hw with hhalts | ⟨ws, hws, hr⟩
    · exact .inl (hhalts.after_loads hus)
    · exact .inr ⟨us ++ ws, hus.append hws, us, ws, rfl, hq, hr⟩

/-- One value after the other. -/
theorem forM {A : Type} {g : A → EmitM Unit} {R : B.Stage → Activation → World → A → Value → Prop} : ∀ {xs : List A},
    (∀ a ∈ xs, Puts B ctx (g a) fun κ vars wE vs => ∃ v, vs = [v] ∧ R κ vars wE a v) →
    Puts B ctx (xs.forM g) fun κ vars wE vs => List.Forall₂ (R κ vars wE) xs vs
  | [], _ => by
    refine nothing.mono fun κ vars wE vs hvs => ?_
    subst hvs
    exact .nil
  | a :: xs, h => by
    have hrest := forM fun c hc => h c (List.mem_cons_of_mem a hc)
    refine ((h a List.mem_cons_self).bind hrest).mono ?_
    rintro κ vars wE vs ⟨us, ws, rfl, ⟨v, rfl, hv⟩, hxs⟩
    exact .cons hv hxs

/-- An item of the closure. -/
theorem item {Q : B.Stage → Activation → World → Value → Prop} {l : Layout} {slot : Nat} {ty : Ty}
    (hl : ctx.layout = some l)
    (h : ∀ κ handling f vars w wE, B.Corresponds ctx κ handling f vars → B.world κ w wE → ∃ r v,
      B.machine.closure = some r ∧ (w.closure r).get slot = .ok v ∧
      (v.asItem l.strategy ty = .ok v ∨ B.machineExcused (.thrown (w.heap.raise (.invalidCast v ty)).1) ∧
        v.asItem l.strategy ty = .error (.invalidCast v ty)) ∧ Q κ vars wE v) :
    Puts B ctx (EmitM.loadItem slot ty) fun κ vars wE vs => ∃ v, vs = [v] ∧ Q κ vars wE v := by
  intro b b' hrun
  rw [Emit.loadItem_eq hl] at hrun
  refine ⟨_, hrun, ?_, fun κ handling f vars w wE hcorr hw => ?_⟩
  · unfold Emit.itemInstrs
    cases l.strategy with
    | fixed => simp [Instr.endsFlow]
    | indexed =>
      split
      · simp [Instr.endsFlow]
      · split <;> simp [Instr.endsFlow]
  · obtain ⟨r, v, hr, hv, hcheck, hq⟩ := h κ handling f vars w wE hcorr hw
    rcases hcheck with hpass | ⟨hM, hfail⟩
    · refine .inr ⟨[v], fun stack => ?_, v, rfl, hq⟩
      rw [MachineM.effects_itemInstrs hr hv, hpass]
      rfl
    · refine .inl ⟨_, hM, fun stack => ?_⟩
      rw [MachineM.effects_itemInstrs hr hv, hfail]
      rfl

/-- Code that only loads simulates a computation that only reads. -/
theorem code {Q : B.Stage → Activation → World → List Value → Prop} {e : EvalM Value} {ty : Ty}
    (he : EmitM.Emits ctx 0 1 x) (hx : Puts B ctx x Q)
    (h : ∀ κ handling vars w wE vs, B.world κ w wE → Q κ vars wE vs →
      ∃ v a, vs = [v] ∧ e (B.eval handling) (vars, wE) = (.ok a, vars, wE) ∧ B.value κ ty v a) :
    B.Code ctx [] 1 x e fun a => [(ty, a)] where
  emits := he
  runs {b b' D u} ht hfit hpast hrun hlink κ handling f vars w wE vs base hready hstack hlen hpre := by
    obtain ⟨is, his, hplain, hputs⟩ := hx b b' hrun
    obtain ⟨D', hadds⟩ := (he b D ht (by simp)).result hrun
    cases hpre
    refine .straight his hadds hpast hlink (fun i hi => (hplain i hi).1) (.inl fun i hi => (hplain i hi).2) hready
      hstack hlen ?_
    rcases hputs κ handling f vars w wE hready.corresponds hready.world with ⟨stop, hM, hstop⟩ | ⟨us, hus, hq⟩
    · exact .inl (.inr ⟨stop, hM, hstop f.stack⟩)
    obtain ⟨v, a, rfl, heval, hv⟩ := h κ handling vars w wE us hready.world hq
    rw [heval, hus.run hstack]
    exact .inr ⟨κ, _, w, [v], rfl, hready.corresponds.after le_rfl rfl rfl, rfl, rfl, rfl, .cons hv .nil, hready.world⟩

end Puts

end Bridge

/-! ## Loads and stores -/

/-- A token that is no variable of the unit is none of the activation. -/
theorem Bridge.Corresponds.outside {B : Bridge} {κ : B.Stage} {handling : List Value} {f : Frame} {vars : Activation}
    (h : B.Corresponds ctx κ handling f vars) (hp : ∀ s ∈ ctx.slots, s.1 ≠ p) : ∀ x ∈ vars.toList, x.1 ≠ p := by
  intro x hx
  obtain ⟨k, hk, rfl⟩ := List.mem_iff_getElem.1 hx
  have hslot := h.vars.get (by rw [h.vars.length_eq]; exact hk) hk
  exact fun heq => hp _ (List.get_mem _ _) (hslot.1.symm.trans heq)

namespace Converted

open Bridge EmitM

variable {S : Surroundings C} {α : Type} {m n : Nat} {slot : Nat} {usage : Usage}

/-- The evaluator finds a captured variable among those of its instance. -/
theorem lookup_captured (hw : t.Within C ctx) (hcap : ctx.Captures p slot) {y : EmitM Unit}
    {Pre : Set Twin → List Value → Prop} {Post : Set Twin → α → List Value → Prop} {g : EvalVar → EvalM α}
    (h : (C.bridge S t).Sim ctx m n Pre y (g (.captured (t.position p))) Post) :
    (C.bridge S t).Sim ctx m n Pre y (EvalM.lookup p >>= g) Post := by
  refine ⟨h.emits,
    fun {b b' D u} ht hfit hpast hrun hlink {κ handling f vars w wE vs base} hready hstack hlen hpre => ?_⟩
  obtain ⟨hin, hpaired⟩ := hready.world
  obtain ⟨r, v, a, hvar⟩ := hpaired.captured hin (hw.slot hcap).1
  have hown : EvalM.position? vars p = none := by
    exact EvalM.position?_eq_none (hready.corresponds.outside hcap.outside)
  have hlookup : EvalM.lookup p ((C.bridge S t).eval handling) (vars, wE) =
      (.ok (.captured (t.position p)), vars, wE) := by
    rw [EvalM.lookup, Act.bind_ok (Act.own_apply _ _)]
    simp only [hown]
    rw [Act.bind_ok (Act.world_apply _ _), Act.bind_ok (Act.read_apply _ _)]
    have hposition : EvalM.position? (EvalM.capturedBy wE ((C.bridge S t).eval handling).self) p =
        some (t.position p) := EvalM.position?_of_innermost hvar.variable_
    simp only [hposition]
    rfl
  rw [Act.bind_ok hlookup]
  exact h.runs ht hfit hpast hrun hlink hready hstack hlen hpre

/-- An item that fails its checks is one of which nothing is said. -/
theorem asItem_excused {ty : Ty} {v a : Value} (h : Stands C κ ty v a) (s : Strategy) (heap : Heap) :
    v.asItem s ty = .ok v ∨ S.machineExcused (.thrown (heap.raise (.invalidCast v ty)).1) ∧
      v.asItem s ty = .error (.invalidCast v ty) :=
  (h.asItem s).imp_right fun ⟨hstrict, herror⟩ => ⟨S.checks hstrict _ rfl, herror⟩

/-- A captured variable is loaded. -/
theorem puts_captured (hw : t.Within C ctx) (hcap : ctx.Captures p slot) :
    Puts (C.bridge S t) ctx (loadVar (.closure slot) p.ty) fun κ _ wE vs => ∃ v, vs = [v] ∧ ∃ a,
      Stands C κ p.ty v a ∧ Innermost (EvalM.capturedBy wE (some t.lambda)).toList p a (t.position p) := by
  obtain ⟨hi, hlayout⟩ := hw.slot hcap
  refine Puts.item hlayout fun κ handling f vars w wE _ hworld => ?_
  obtain ⟨r, v, a, hvar⟩ := hworld.2.captured hworld.1 hi
  exact ⟨r, v, hvar.closure, hvar.item, asItem_excused hvar.stands _ _, a, hvar.stands, hvar.variable_⟩

theorem load_captured (hw : t.Within C ctx) (hcap : ctx.Captures p slot) :
    (C.bridge S t).Code ctx [] usage.count (if usage = .value then loadVar (.closure slot) p.ty else pure ())
      (do EvalM.access.read (← EvalM.lookup p)) (usage.leaves p.ty) := by
  refine lookup_captured hw hcap ?_
  cases usage with
  | discard => exact Sim.quiet (fun ec s => ⟨_, rfl⟩) fun κ a vs hvs => hvs
  | value =>
    rw [if_pos rfl]
    refine Puts.code (Emit.emits_loadVar _ _) (puts_captured hw hcap) fun κ handling vars w wE vs _ hvs => ?_
    obtain ⟨v, rfl, a, hstands, hvar⟩ := hvs
    refine ⟨v, a, rfl, ?_, hstands⟩
    have hget : (EvalM.capturedBy wE (some t.lambda))[t.position p]? = some (p, a) := by
      rw [← Array.getElem?_toList]
      exact hvar.here
    show (Except.ok (EvalM.valueAt (EvalM.capturedBy wE (some t.lambda)) (t.position p)), vars, wE) = _
    simp [EvalM.valueAt, hget]

/-- A value goes into a captured variable. -/
theorem store_captured (hw : t.Within C ctx) (hcap : ctx.Captures p slot) (a : Value) :
    (C.bridge S t).Code ctx [(p.ty, a)] 0 (storeVar (.closure slot))
      (EvalM.access.write (.captured (t.position p)) a) fun _ => [] := by
  obtain ⟨hi, hlayout⟩ := hw.slot hcap
  obtain ⟨r, hr⟩ := hw.made.closure_of_index hi
  refine Sim.of_code (y := emit (.storeItem (t.capture.layout C.limit).strategy slot)) ?_ fun b => ?_
  · refine Sim.perform rfl (.emit (.storeItem _ slot) rfl) (.inl rfl) fun κ vs hlen hvs => ?_
    obtain ⟨v, rfl, hv⟩ := Holds.one hvs
    refine ⟨Unit, _, _, MachineM.performs_storeItem hr _ slot v, fun handling vars w wE ⟨hin, hpaired⟩ => .inr ?_⟩
    obtain ⟨c, c', hc, hset, hpaired'⟩ := hpaired.assign hin hr hi hv
    have hwrite : EvalM.access.write (.captured (t.position p)) a ((C.bridge S t).eval handling) (vars, wE) =
        (.ok (), vars, wE.setCaptured t.lambda (t.position p) a) := rfl
    have hstored : MachineM.storedItem r slot v w = (.ok (), w.setClosure r c') := by
      have hclosure : w.closure r = c := by simp [World.closure, hc]
      rw [MachineM.storedItem, hclosure, hset]
    rw [hwrite]
    exact ⟨rfl, κ, (), _, le_rfl, hstored, rfl, .nil, hin, hpaired'⟩
  · have hl : EmitM.layout ctx b = .ok (t.capture.layout C.limit, b) := by
      rw [EmitM.layout, EmitM.bind_apply, EmitM.read_apply]
      simp only [hlayout]
      rfl
    rw [storeVar, EmitM.bind_apply, hl]

/-- The value of a computation goes into a captured variable. -/
theorem assign_captured {source : EmitM Unit} {e : EvalM Value} (hw : t.Within C ctx) (hcap : ctx.Captures p slot)
    (hs : (C.bridge S t).Code ctx [] 1 source e fun a => [(p.ty, a)]) :
    (C.bridge S t).Code ctx [] usage.count (do
        source
        if usage = .value then emit .dup
        storeVar (.closure slot)) (do
        let var ← EvalM.lookup p
        let v ← e
        EvalM.access.write var v
        return v) (usage.leaves p.ty) :=
  lookup_captured hw hcap (Code.bind_one hs fun a => Code.assignVar (store_captured hw hcap a))

end Converted

end ExprCompiler
