/-
Reads through struct-typed receivers. The code of a read leaves the address of the struct, then the arguments, and one
instruction reads at the address and calls the getter. It comes to what the evaluation that reads late comes to, and so
to what the evaluator comes to, if the arguments leave the receiver alone and fields are read in objects only.
-/
import Mathlib
import ExprCompiler.Proofs.FirstOrder.Refinement
import ExprCompiler.Proofs.Places.Reading
import ExprCompiler.Proofs.Places.Stores

namespace ExprCompiler

open Reading

namespace Sides

variable {S : Sides} {F : Callable → Prop} {K : Knowledge} {t : Tree} {α β : Type} {x : EmitM Unit}
  {after : α → List Item} {b : Place EvalVar} {vs : List Value}

/-! ## Access expressions -/

theorem Codes.settled {before : List Item} {e : EvalM α}
    (h : S.Codes K before x e after) (ty : Ty) : S.Codes K before (do x; EmitM.settle .value ty) e after :=
  h.of_code fun b => by simp [EmitM.settle]

theorem Codes.map {before : List Item} {e : EvalM α} {after' : β → List Item}
    (h : S.Codes K before x e after) (g : α → β) (hg : ∀ a, after' (g a) = after a) :
    S.Codes K before x (do return g (← e)) after' where
  lays := h.lays
  runs {b b' is} hx hlays l s t vs base hle hA hk hstage hst hbefore := by
    have hends := h.runs hx hlays hle hA hk hstage hst hbefore
    rcases he : e S.eval t with ⟨stop | a, t'⟩ <;> rw [he] at hends
    · rw [Act.bind_error he]
      exact hends
    · rw [Act.bind_ok he]
      obtain ⟨s', us, hr, hl, hk', hst', hh⟩ := hends
      exact ⟨s', us, hr, hl, hk', hst', hg a ▸ hh⟩

/-- A node without storage is copied into a local. -/
theorem Codes.copied {e : EvalM Value} (h : S.Codes K [] x e fun a => [.value a]) (ty : Ty) :
    S.Codes K [] (do
      x
      let temp ← EmitM.newLocal ty
      EmitM.emit (.storeLocal temp)
      EmitM.emit (.loadLocalAddr temp)) (do return .root (.temp (← e))) fun b => [.place b] :=
  h.bind fun v => .temp v ty

/-- The surroundings of a unit without a closure, in one program on both sides. -/
structure Bare (S : Sides) : Prop where
  layout : S.ctx.layout = none
  tokens : ∀ {p x}, S.ctx.KeptIn p x → p ∈ S.tokens
  closure : S.machine.closure = none
  self : S.eval.self = none
  lib : S.machine.lib = S.eval.lib
  inv : S.machine.inv = S.eval.inv

theorem Bare.load (hS : S.Bare) (p : Param) :
    S.Codes (.portable F) [] (do EmitM.loadVar (← EmitM.resolve p) p.ty) (do EvalM.access.read (← EvalM.lookup p))
      fun a => [.value a] := by
  refine .load hS.tokens fun {s t x y v} _ hk _ hy hv => ⟨?_, fun slot layout _ hlayout => ?_⟩
  · exact (portable_read hS.self hk hy.place (b := .root y) (read_held hv)).2
  · rw [hS.layout] at hlayout
    cases hlayout

/-- The codes of an access expression come to what it comes to where receivers are read late. -/
structure Follows (S : Sides) (F : Callable → Prop) (t : Tree) : Prop where
  value : S.Codes (.portable F) [] (t.emission.value .value) (t.reading unaddressable).value fun a => [.value a]
  address : S.Codes (.portable F) [] t.emission.address (t.reading unaddressable).place fun b => [.place b]
  spot : (t.reading unaddressable).spot = (t.reading unaddressable).place

theorem Follows.assign {id : NodeId} {ty : Ty} {target v : Tree}
    (h : S.Codes (.portable F) [] (target.emission.assign (v.emission.value .value) .value)
      ((target.reading unaddressable).assign (v.reading unaddressable).value) fun a => [.value a]) :
    S.Follows F (.node id ty (.assign target v)) := by
  have hvalue : S.Codes (.portable F) [] (Emit.value id ty (.assign (.of Tree.emission target) (.of Tree.emission v))
    .value)
      ((target.reading unaddressable).assign (v.reading unaddressable).value) fun a => [.value a] := .of_used h
  constructor
  · rw [Tree.emission_node, Tree.reading_assign]
    exact hvalue
  · rw [Tree.emission_node, Tree.reading_assign]
    exact hvalue.copied ty
  · rw [Tree.reading_assign]

/-- Code that takes a receiver, in place or as a copy. -/
theorem Follows.receiver {y : EmitM Unit} {g : Place EvalVar → EvalM α} (h : S.Follows F t)
    (hplace : ∀ b, S.Codes (.portable F) [.place b] y (g b) after)
    (hvalue : ∀ v, S.Codes (.portable F) [.value v] y (g (.root (.temp v))) after) :
    S.Codes (.portable F) [] (do Emitted.receiver (.of Tree.emission t); y)
      (do g (← Evaluated.receiver (plain (.of (Tree.reading unaddressable) t)))) after := by
  by_cases hs : t.ty.isStruct = true
  · have hcode : Emitted.receiver (.of Tree.emission t) = t.emission.address := if_pos hs
    have heval : Evaluated.receiver (plain (.of (Tree.reading unaddressable) t)) = (t.reading unaddressable).place :=
      if_pos hs
    rw [hcode, heval]
    exact h.address.bind hplace
  · have hcode : Emitted.receiver (.of Tree.emission t) = t.emission.value .value := if_neg hs
    have heval : Evaluated.receiver (plain (.of (Tree.reading unaddressable) t)) =
        (do return .root (.temp (← (t.reading unaddressable).value))) := if_neg hs
    rw [hcode, heval, bind_assoc]
    exact h.value.bind hvalue

theorem length_of_mapM {f : Tree → EvalM Value} {ctx : EvalContext} : ∀ {ts : List Tree} {vs : List Value}
    {s s' : Activation × World}, ts.mapM f ctx s = (.ok vs, s') → vs.length = ts.length
  | [], vs, s, s', h => by
    cases h
    rfl
  | t :: ts, vs, s, s', h => by
    rw [List.mapM_cons] at h
    obtain ⟨v, s₁, -, h⟩ := Act.bind_eq_ok h
    obtain ⟨us, s₂, hrest, h⟩ := Act.bind_eq_ok h
    cases h
    rw [List.length_cons, List.length_cons, length_of_mapM hrest]

/-- Code comes to what a computation of the evaluator comes to, in the same world, and leaves its value. -/
def Leaves (base : List Value) (r : Except Stop Unit × Frame × World) : Except Stop Value × Activation × World → Prop
  | (.ok v, t) => ∃ f, r = (.ok (), f, t.2) ∧ f.stack = v :: base
  | (.error stop, t) => ∃ f, r = (.error stop, f, t.2)

variable {W : Set Nat} {l m : Nat} {s s' : Frame × World} {r r' : Activation × World} {base : List Value}

theorem Later.world (h : S.Later W s r s' r') (hS : S.Bare) (hw : s.2 = r.2) : s'.2 = r'.2 := by
  rw [h.machine hS.closure, h.eval hS.self, hw, h.agree.heap]

theorem Ends.leaves {x : Except Stop Unit × Frame × World} {y : Except Stop Value × Activation × World}
    (h : S.Ends K l m base (fun a => [.value a]) s r x y) (hS : S.Bare) (hw : s.2 = r.2) : Leaves base x y := by
  rcases y with ⟨stop | v, r'⟩
  · obtain ⟨s', rfl, hl⟩ := h
    exact ⟨s'.1, by rw [← hl.world hS hw]⟩
  · obtain ⟨s', vs, rfl, hl, -, hst, hh⟩ := h
    obtain ⟨u, rfl, rfl, -⟩ := holds_one hh
    exact ⟨s'.1, by rw [← hl.world hS hw], hst⟩

/-- A call of the host on what is read at a place. -/
theorem Denotes.leaves {a : Place FrameVar} {c : Value → MachineM Value} {e : Value → EvalM Value}
    (h : S.Denotes l m s r a b) (hS : S.Bare) (hA : S.Agree s r) (hw : s.2 = r.2)
    (op : Value → World → Except Stop Value × World) (hc : ∀ v, (c v).OnWorld S.machine (op v))
    (he : ∀ v, (e v).OnWorld S.eval (op v)) :
    Leaves s.1.stack ((a.read MachineM.access >>= fun v => c v >>= MachineM.push) S.machine s)
      ((b.read EvalM.access >>= e) S.eval r) := by
  obtain ⟨hresult, hlater, hstack⟩ := h.read (W := ∅) hA
  rcases hread : a.read MachineM.access S.machine s with ⟨result, s'⟩
  rcases hread' : b.read EvalM.access S.eval r with ⟨result', r'⟩
  rw [hread, hread'] at hresult hlater
  rw [hread] at hstack
  obtain rfl : result = result' := hresult
  have hworld : s'.2 = r'.2 := hlater.world hS hw
  cases result with
  | error stop =>
    rw [Act.bind_error hread, Act.bind_error hread']
    exact ⟨s'.1, by rw [← hworld]⟩
  | ok v =>
    rw [Act.bind_ok hread, Act.bind_ok hread', MachineM.bind_push_apply (hc v), he v r'.1 r'.2, hworld]
    rcases op v r'.2 with ⟨stop | u, w'⟩
    · exact ⟨s'.1, rfl⟩
    · exact ⟨_, rfl, by simpa using hstack⟩

theorem holds_append {xs ys : List Item} {us : List Value} (h : S.Holds K l m s r (xs ++ ys) us) :
    ∃ vs ws, us = vs ++ ws ∧ S.Holds K l m s r xs vs ∧ S.Holds K l m s r ys ws := by
  induction xs generalizing us with
  | nil => exact ⟨[], us, rfl, .nil, h⟩
  | cons x xs ih =>
    obtain ⟨u, us', hu, hrest, rfl⟩ := List.forall₂_cons_left_iff.1 h
    obtain ⟨vs, ws, rfl, hvs, hws⟩ := ih hrest
    exact ⟨u :: vs, ws, rfl, .cons hu hvs, hws⟩

/-- Calls of the host from the machine and from the evaluator. -/
theorem Bare.hostValue (hS : S.Bare) (fn : HostRef) (v : Value) (args : List Value) :
    (MachineM.hostValue fn v args).OnWorld S.machine (fun w => w.hosted S.eval.lib S.eval.inv fn v args) ∧
      (EvalM.hostValue fn v args).OnWorld S.eval fun w => w.hosted S.eval.lib S.eval.inv fn v args := by
  refine ⟨?_, Act.onWorld_hostValue _ _ _ _ _⟩
  rw [← hS.lib, ← hS.inv]
  exact Act.onWorld_hostValue _ _ _ _ _

end Sides

/-! ## Units -/

variable {is : List Instr}

/-- Straight code and a return. -/
theorem CodeUnit.Straight.returns {u : CodeUnit} {fc : FrameContext} {f f' : Frame} {w w' : World}
    {fuel : Nat} {v : Value} {base : List Value} (h : u.Straight 0 is) (hret : u.instrs[is.length]? = some .ret)
    (hfuel : u.instrs.size ≤ fuel) (hrun : effects is fc (f, w) = (.ok (), f', w')) (hst : f'.stack = v :: base) :
    u.run fc fuel ⟨0, f, w⟩ = (.ok v, w') := by
  have hadv := Straight.run fc is h f w
  rw [hrun] at hadv
  obtain ⟨fuel', hfuel', hsame⟩ := CodeUnit.run_of_advances hadv fuel hfuel
  have hlt := (Array.getElem?_eq_some_iff.1 hret).1
  obtain ⟨n, rfl⟩ : ∃ n, fuel' = n + 1 := ⟨fuel' - 1, by simp only at hfuel'; omega⟩
  have hexec : MachineM.exec .ret fc (f', w') = (.ok (.ret v), { f' with stack := base }, w') := by
    rw [MachineM.exec, Act.bind_ok (MachineM.pop_apply hst)]
    rfl
  rw [hsame, CodeUnit.run, Nat.zero_add]
  simp only [CodeUnit.step, hret, hexec]

theorem CodeUnit.Straight.stops {u : CodeUnit} {fc : FrameContext} {f f' : Frame} {w w' : World}
    {fuel : Nat} {stop : Stop} (h : u.Straight 0 is) (hhandlers : u.handlers = []) (hfuel : u.instrs.size ≤ fuel)
    (hrun : effects is fc (f, w) = (.error stop, f', w')) : u.run fc fuel ⟨0, f, w⟩ = (.error stop, w') := by
  have hstops := Straight.run fc is h f w
  rw [hrun] at hstops
  obtain ⟨k, hk, hstops⟩ := hstops
  exact hstops.run hfuel fun v _ => by rw [hhandlers]; rfl

namespace Sides

/-- Where the parameters of a unit without a closure are kept. -/
theorem keptIn_param {operators : Overloads} {params : List Param} {capture : Capture} {p : Param} {x : FrameVar}
    (h : EmitContext.KeptIn { operators, params, capture, layout := none } p x) (hfew : params.length < Nat.pow 2 16) :
    ∃ i, params[i]? = some p ∧ x = .arg i := by
  have h := h (Emit.start "" [] .void none)
  rw [EmitM.resolve, EmitM.bind_apply, EmitM.read_apply] at h
  simp only [EmitM.localOf?, List.findSome?_nil] at h
  rcases hi : params.findIdx? (· == p) with _ | i <;> rw [hi] at h
  · rcases hp : capture.paramIndex? p with _ | j <;> rw [hp] at h <;> cases h
  · obtain ⟨hlt, heq, -⟩ := List.findIdx?_eq_some_iff_getElem.1 hi
    cases h
    have hmod : i % Nat.pow 2 16 = i := Nat.mod_eq_of_lt (hlt.trans hfew)
    exact ⟨i, by rw [List.getElem?_eq_getElem hlt, beq_iff_eq.1 heq], by simp [hmod]⟩

/-- A call of a unit without a closure, and the evaluation of the same tree. -/
def call (lib : Library) (inv : Invoker) (operators : Overloads) (params : List Param) (capture : Capture)
    (hfew : params.length < Nat.pow 2 16) : Sides where
  ctx := { operators, params, capture, layout := none }
  machine := ⟨lib, inv, none⟩
  eval := ⟨lib, inv, none, []⟩
  tokens := params
  apart p hp q hq x hx hy := by
    obtain ⟨i, hi, rfl⟩ := keptIn_param hx hfew
    obtain ⟨j, hj, heq⟩ := keptIn_param hy hfew
    cases heq
    exact Option.some.inj (hi.symm.trans hj)

section

variable {lib : Library} {inv : Invoker} {operators : Overloads} {params : List Param} {capture : Capture}
  {hfew : params.length < Nat.pow 2 16} {u : CodeUnit} {args : List Value} {w : World}

end

/-! ## Whole units -/

/-- What follows the code of a unit's tree: a unit without a result returns null. -/
def finale (ty : Ty) : List Instr :=
  if ty.isVoid then [.const .null] else []

variable {lib : Library} {inv : Invoker} {operators : Overloads} {params : List Param} {capture : Capture}
    {u : CodeUnit}
  {args : List Value} {w : World}

/-- The unit of a read: straight code that leaves what the read comes to, and a return. -/
structure ReadUnit (lib : Library) (inv : Invoker) (F : Callable → Prop) (params : List Param) (t : Tree) (u : CodeUnit)
    (is : List Instr) : Prop where
  head : u.params = params.map Param.ty ∧ u.layout = none ∧ u.native = none
  straight : u.Straight 0 (is ++ finale t.ty)
  returns : u.instrs[(is ++ finale t.ty).length]? = some .ret
  handlers : u.handlers = []
  leaves : ∀ args w, args.length = params.length → (∀ v ∈ args, v.Portable F) → w.heap.Portable F →
    Leaves [] (CodeUnit.effects is ⟨lib, inv, none⟩ (u.frame none args, w))
      ((t.reading unaddressable).value ⟨lib, inv, none, []⟩ ((params.zip args).toArray, w))

/-- A call of the unit of a read comes to what the read comes to where its receiver is read late. -/
theorem ReadUnit.interpret {fuel : Nat} (h : ReadUnit lib inv F params t u is)
    (hlen : args.length = params.length) (hargs : ∀ v ∈ args, v.Portable F) (hheap : w.heap.Portable F)
    (hfuel : u.instrs.size ≤ fuel) {result : Except Stop Value} {r : Activation × World}
    (hvalue : (t.reading unaddressable).value ⟨lib, inv, none, []⟩ ((params.zip args).toArray, w) = (result, r)) :
    u.interpret ⟨lib, inv, none⟩ fuel args w = (result.map fun v => if t.ty.isVoid then .null else v, r.2) := by
  have hleaves := h.leaves args w hlen hargs hheap
  rw [hvalue] at hleaves
  have hframe : u.interpret ⟨lib, inv, none⟩ fuel args w = u.run ⟨lib, inv, none⟩ fuel ⟨0, u.frame none args, w⟩ := rfl
  rw [hframe]
  cases result with
  | error stop =>
    obtain ⟨f, hrun⟩ := hleaves
    have hall : CodeUnit.effects (is ++ finale t.ty) ⟨lib, inv, none⟩ (u.frame none args, w) =
      (.error stop, f, r.2) := by
      rw [CodeUnit.effects_append, Act.bind_error hrun]
    exact h.straight.stops h.handlers hfuel hall
  | ok v =>
    obtain ⟨f, hrun, hst⟩ := hleaves
    cases hv : t.ty.isVoid with
    | true =>
      have hall : CodeUnit.effects (is ++ finale t.ty) ⟨lib, inv, none⟩ (u.frame none args, w) =
          (.ok (), { f with stack := .null :: f.stack }, r.2) := by
        rw [finale, if_pos hv, CodeUnit.effects_append, Act.bind_ok hrun]
        rfl
      exact h.straight.returns h.returns hfuel hall rfl
    | false =>
      have hall : CodeUnit.effects (is ++ finale t.ty) ⟨lib, inv, none⟩ (u.frame none args, w) = (.ok (), f, r.2) := by
        rw [finale, if_neg (by simp [hv]), List.append_nil, hrun]
      exact h.straight.returns h.returns hfuel hall hst

end Sides

/-! ## Compiled reads -/

/-- A call of the unit of a read comes to what the evaluator comes to. -/
theorem Sides.ReadUnit.interpret_eq {lib : Library} {inv : Invoker} {F : Callable → Prop} {params : List Param}
    {t : Tree} {u : CodeUnit} {args : List Value} {w : World} {fuel : Nat} (h : ReadUnit lib inv F params t u is)
    (ht : t.IsRead) (hlen : args.length = params.length) (hargs : ∀ v ∈ args, v.Portable F) (hheap : w.heap.Portable F)
    (hfuel : u.instrs.size ≤ fuel) (hobjects : t.ReadsObjects ⟨lib, inv, none, []⟩ ((params.zip args).toArray, w))
    (hkeeps : t.KeepsReceiver ⟨lib, inv, none, []⟩ ((params.zip args).toArray, w)) :
    u.interpret ⟨lib, inv, none⟩ fuel args w = Eval.evaluate lib inv t params args w := by
  rcases hvalue : t.meaning.value ⟨lib, inv, none, []⟩ ((params.zip args).toArray, w) with ⟨result, r⟩
  have hreading : (t.reading unaddressable).value ⟨lib, inv, none, []⟩ ((params.zip args).toArray, w) = (result, r) :=
    (ht.reading_eq hobjects hkeeps).trans hvalue
  rw [h.interpret hlen hargs hheap hfuel hreading, Eval.evaluate, Eval.activate, Eval.binding_eq hlen.symm]
  have hvalueAs : Evaluated.valueAs (.of Tree.meaning t) t.ty ⟨lib, inv, none, []⟩ ((params.zip args).toArray, w) =
      (result.map fun v => if t.ty.isVoid then t.ty.zero else v, r) := by
    cases result with
    | error stop => exact Act.bind_error hvalue _
    | ok v => exact Act.bind_ok hvalue _
  have hzero : (fun v : Value => if t.ty.isVoid then t.ty.zero else v) = fun v => if t.ty.isVoid then .null else v := by
    funext v
    cases t.ty <;> rfl
  simp only [hvalueAs, hzero]

namespace CompileM

variable {c : Compiler} {s s' : Session} {t : Tree} {params : List Param} {a : Artifact}

/-- A struct with a count. -/
def row : Class := .mk 0 "Row" true none [.mk "count" (.int .i32)]

/-- A host whose functions give the first field of their receiver. -/
def counts : Library where
  operators := []
  host _ call h := .finish call.receiver (.ok (match call.receiver with | .struct _ (v :: _) => v | _ => .null)) h

def gives (n : Int) : Except Stop Value → Bool
  | .ok (.int w) => w == .ofInt .i32 n
  | _ => false

end CompileM

end ExprCompiler
