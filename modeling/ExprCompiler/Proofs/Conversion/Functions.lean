/-
New functions. Where a lambda stands, the machine builds the closure of its unit from variables and items at hand,
and the evaluator copies all variables in sight; both have made twins then, whichever unit the lambda was compiled
into.
-/
import ExprCompiler.Proofs.Conversion.Captured

namespace ExprCompiler

variable {C : Converted} {κ : Set Twin} {t : Twin} {w wE : World} {ctx : EmitContext} {b b' : Builder}

/-! ## Generators -/

namespace Emit

open EmitM

theorem layout_inv {l : Layout} (h : layout ctx b = .ok (l, b')) : ctx.layout = some l ∧ b' = b := by
  rw [layout, EmitM.bind_apply, EmitM.read_apply] at h
  rcases hl : ctx.layout with _ | l' <;> simp only [hl] at h <;> cases h
  exact ⟨rfl, rfl⟩

theorem check_inv {α : Type} {r : Except Defect α} {a : α} (h : check r ctx b = .ok (a, b')) : r = .ok a ∧ b' = b := by
  cases r <;> cases h
  exact ⟨rfl, rfl⟩

theorem found_inv {o : Option Nat} {i : Nat} (h : found o ctx b = .ok (i, b')) : o = some i ∧ b' = b := by
  cases o <;> cases h
  exact ⟨rfl, rfl⟩

/-- The item of a lambda is looked up before it is loaded. -/
theorem nestedSlot_inv {node : NodeId} {k : Nat → Nat → EmitM Unit}
    (h : (do
      let i ← found ((← read).capture.nestedIndex? node)
      let slot ← check ((← layout).slot .nested i)
      k i slot) ctx b = .ok ((), b')) :
    ∃ i l slot, ctx.capture.nestedIndex? node = some i ∧ ctx.layout = some l ∧ l.slot .nested i = .ok slot ∧
      k i slot ctx b = .ok ((), b') := by
  obtain ⟨_, _, ⟨⟩, h₁⟩ := EmitM.bind_eq_ok h
  obtain ⟨i, b₁, hi, h₂⟩ := EmitM.bind_eq_ok h₁
  obtain ⟨hindex, rfl⟩ := found_inv hi
  obtain ⟨l, b₂, hl, h₃⟩ := EmitM.bind_eq_ok h₂
  obtain ⟨hlayout, rfl⟩ := layout_inv hl
  obtain ⟨slot, b₃, hslot, h₄⟩ := EmitM.bind_eq_ok h₃
  obtain ⟨hpos, rfl⟩ := check_inv hslot
  exact ⟨i, l, slot, hindex, hlayout, hpos, h₄⟩

theorem lambda_inv {id : NodeId} (h : lambda id ctx b = .ok ((), b')) :
    ∃ i l slot n, ctx.capture.nestedIndex? id = some i ∧ ctx.layout = some l ∧ l.slot .nested i = .ok slot ∧
      ctx.capture.nested[i]? = some n ∧ building slot n ctx b = .ok ((), b') := by
  obtain ⟨i, l, slot, hindex, hlayout, hpos, hbuild⟩ := nestedSlot_inv h
  obtain ⟨_, _, ⟨⟩, hbuild⟩ := EmitM.bind_eq_ok hbuild
  rcases hn : ctx.capture.nested[i]? with _ | n <;> simp only [hn] at hbuild
  · cases hbuild
  · exact ⟨i, l, slot, n, hindex, hlayout, hpos, hn, hbuild⟩

/-- The code that builds a closure: what goes into it is loaded first. -/
theorem building_curryable {n : Nested} {child : Capture} {u : UnitRef} {l : Layout} (hcapture : n.capture = some child)
    (hartifact : n.artifact = .curryable u l) (hconstants : child.constants = []) (slot : Nat) :
    building slot n = (do
      (do
        loadItem slot n.itemType
        child.params.forM fun p => do loadVar (← resolve p) p.ty
        child.nested.forM fun n => loadNested n.node n.itemType)
      [.newClosure l, .curry].forM emit) := by
  unfold building
  simp only [hcapture, hartifact, hconstants, List.forM_eq_forM, List.forM_nil, List.forM_cons, pure_bind, bind_assoc]
  simp only [bind_pure_unit]

end Emit

theorem Capture.node_of_index {capture : Capture} {id : NodeId} {i : Nat} {n : Nested}
    (hi : capture.nestedIndex? id = some i) (hn : capture.nested[i]? = some n) : n.node = id := by
  obtain ⟨hlt, hnode, -⟩ := List.findIdx?_eq_some_iff_getElem.1 hi
  rw [List.getElem?_eq_getElem hlt] at hn
  cases hn
  exact beq_iff_eq.1 hnode

/-! ## Items of lambdas -/

theorem NestedOf.Compiled.asItem {m : Nested} (h : m.Compiled C.compiler C.root C.units) (s : Strategy) :
    m.artifact.itemValue.asItem s m.itemType = .ok m.artifact.itemValue := by
  cases h with
  | @record _ _ _ _ _ sig cap =>
    unfold NestedOf.itemType
    cases hempty : cap.isEmpty with
    | true =>
      simp only [Capture.layout?, hempty, if_true]
      cases s <;> rfl
    | false => cases s <;> rfl

theorem Converted.Paired.nested (h : C.Paired κ w wE) (ht : t ∈ κ) {i : Nat} {n : Nested}
    (hn : t.capture.nested[i]? = some n) :
    ∃ r v, t.closure = some r ∧ (w.closure r).get (t.capture.params.length + i) = .ok v ∧ C.IsItem n v := by
  have hheld := h.held t ht
  have hsome : t.closure.isSome := by
    have := (List.getElem?_eq_some_iff.1 hn).1
    rw [hheld.made.closure, Bool.not_eq_true', Capture.isEmpty, beq_eq_false_iff_ne, Capture.size]
    omega
  obtain ⟨r, hr⟩ := Option.isSome_iff_exists.1 hsome
  obtain ⟨captured, -, -, hitems⟩ := hheld.lambda
  obtain ⟨c, hc, hitems⟩ := hitems r hr
  obtain ⟨v, hv, hitem⟩ := hitems.nested i n hn
  exact ⟨r, v, hr, by simp [World.closure, hc, Closure.get, hv], hitem⟩

namespace Converted

open Bridge EmitM

variable {S : Surroundings C}

theorem puts_item (hw : t.Within C ctx) {l : Layout} {i slot : Nat} {n : Nested} (hl : ctx.layout = some l)
    (hslot : l.slot .nested i = .ok slot) (hn : t.capture.nested[i]? = some n) :
    Puts (C.bridge S t) ctx (loadItem slot n.itemType) fun _ _ _ vs => ∃ v, vs = [v] ∧ C.IsItem n v := by
  obtain ⟨rfl, -, hbase⟩ := hw.made.slot (hw.layout.symm.trans hl) hslot
  rw [hbase]
  refine Puts.item hl fun κ handling f vars w wE _ hworld => ?_
  obtain ⟨r, v, hr, hv, m, hm, hplain, rfl⟩ := hworld.2.nested hworld.1 hn
  refine ⟨r, _, hr, hv, .inl ?_, m, hm, hplain, rfl⟩
  rw [← NestedOf.plain_itemType, ← hplain, NestedOf.plain_itemType]
  exact hm.asItem l.strategy

/-- The item of a lambda is loaded by its node. -/
theorem puts_nested (hw : t.Within C ctx) {n : Nested} (hn : n.Compiled C.compiler C.root C.units) :
    Puts (C.bridge S t) ctx (loadNested n.node n.itemType) fun _ _ _ vs => ∃ v, vs = [v] ∧ C.IsItem n v := by
  intro b b' hrun
  obtain ⟨i, l, slot, hi, hl, hslot, hload⟩ := Emit.nestedSlot_inv hrun
  rw [hw.capture] at hi
  obtain ⟨hlt, -⟩ := List.findIdx?_eq_some_iff_getElem.1 hi
  have hown : t.capture.nested[i]? = some t.capture.nested[i] := List.getElem?_eq_getElem hlt
  -- the unit's own record of the lambda may be another one
  have hplain : t.capture.nested[i].plain = n.plain :=
    hn.plain_eq C.shares (hw.made.captures.nested _ (List.getElem_mem hlt)) (Capture.node_of_index hi hown)
  have htype : n.itemType = t.capture.nested[i].itemType := by
    rw [← NestedOf.plain_itemType, ← hplain, NestedOf.plain_itemType]
  rw [htype] at hload
  refine ((puts_item hw hl hslot hown).mono fun κ vars wE vs ⟨v, hvs, m, hm, hm', hv⟩ => ?_) b b' hload
  exact ⟨v, hvs, m, hm, hm'.trans hplain, hv⟩

/-- A value for the innermost variable of a token that is in sight. -/
def Sees (C : Converted) (t : Twin) (κ : Set Twin) (vars : Activation) (wE : World) (p : Param) (v : Value) : Prop :=
  ∃ a j, Innermost ((EvalM.capturedBy wE (some t.lambda)).toList ++ vars.toList) p a j ∧ Stands C κ p.ty v a

theorem puts_variable {b₀ : Builder} (hw : t.Within C ctx) (hfit : ctx.Fits b₀) (p : Param) :
    Puts (C.bridge S t) ctx (do loadVar (← resolve p) p.ty) fun κ vars wE vs => ∃ v, vs =
      [v] ∧ C.Sees t κ vars wE p v := by
  intro b b' hrun
  obtain ⟨x, b₁, hx, hload⟩ := EmitM.bind_eq_ok hrun
  obtain ⟨rfl, ⟨i, hin⟩ | ⟨slot, rfl, hcap⟩⟩ := resolve_inv hx hfit
  · obtain ⟨ld, hld, heq, hplain⟩ := Bridge.loadVar_slot (List.mem_of_getElem? hin.here) p.ty
    rw [heq] at hload
    refine ⟨[ld], ?_, by simpa using hplain, fun κ handling f vars w wE hcorr _ => ?_⟩
    · rw [show [ld].forM emit = emit ld from bind_pure_unit]
      exact hload
    · obtain ⟨v, a, hv, hstands, ha⟩ := hcorr.own hin
      refine .inr ⟨[v], fun stack => ?_, v, rfl, a, _, ha.append_right, hstands⟩
      rw [CodeUnit.effects_one]
      exact MachineM.effect_load hld hv
  · obtain ⟨is, his, hplain, hputs⟩ := puts_captured (S := S) hw hcap b₁ b' hload
    refine ⟨is, his, hplain, fun κ handling f vars w wE hcorr hworld => ?_⟩
    refine (hputs κ handling f vars w wE hcorr hworld).imp_right ?_
    rintro ⟨vs, hvs, v, rfl, a, hstands, ha⟩
    exact ⟨[v], hvs, v, rfl, a, _, ha.append_left (hcorr.outside hcap.outside), hstands⟩

end Converted

/-! ## New twins -/

/-- The unit that a lambda was compiled into, with what it captures. -/
structure Converted.Makes (C : Converted) (params : List Param) (body : Tree) (name : Option String) (m : Nested)
    (ref : UnitRef) (capture : Capture) : Prop where
  artifact : m.artifact = .ofLayout ref (capture.layout? C.limit)
  captures : m.capture = if capture.isEmpty then none else some capture
  made : ∀ closure lambda tokens, closure.isSome = !capture.isEmpty →
    Twin.Made C ⟨ref, closure, lambda, name, params, body, capture, tokens⟩

namespace Converted

variable {id : NodeId} {ty : Ty} {params : List Param} {body : Tree} {name : Option String} {m : Nested} {ref : UnitRef}
  {capture : Capture}

theorem makes (ho : Tree.Occurs (.node id ty (.lambda params body name)) C.root)
    (hm : m.Compiled C.compiler C.root C.units) (hid : m.node = id) :
      ∃ ref capture, C.Makes params body name m ref capture := by
  cases hm with
  | @record _ _ _ _ _ sig capture ref node signature _ linked constants nested =>
    have hsame := C.shares _ _ node ho hid
    cases hsame
    obtain ⟨-, hty, hnodup⟩ := C.typed.of_occurs node
    have hsig : sig.ret = body.ty := by
      simp only [Tree.ty] at hty
      rw [hty] at signature
      cases signature
      rfl
    rw [hsig] at linked
    exact ⟨ref, capture, rfl, rfl, fun closure lambda tokens hclosure =>
      ⟨linked, ⟨constants, nested⟩, (Tree.Occurs.of_child (List.mem_singleton_self body)).trans node, hnodup, hclosure⟩⟩

/-- A lambda without captures has its unit alone. -/
theorem Makes.bare (h : C.Makes params body name m ref capture) (hm : m.capture = none) :
    capture.isEmpty = true ∧ m.artifact.itemValue = .func (.code ref none) := by
  rw [h.captures] at hm
  have hempty : capture.isEmpty = true := by
    by_contra hne
    simp [hne] at hm
  rw [h.artifact, Capture.layout?, hempty]
  exact ⟨rfl, rfl⟩

/-- A lambda with captures needs a closure for them. -/
theorem Makes.curryable {child : Capture} (h : C.Makes params body name m ref capture) (hm : m.capture = some child) :
    child = capture ∧ capture.isEmpty = false ∧ m.artifact = .curryable ref (capture.layout C.limit) := by
  rw [h.captures] at hm
  cases hempty : capture.isEmpty with
  | true => simp [hempty] at hm
  | false =>
    simp only [hempty, Bool.false_eq_true, if_false, Option.some.injEq] at hm
    refine ⟨hm.symm, rfl, ?_⟩
    rw [h.artifact, Capture.layout?, hempty]
    rfl

/-- The twin of a new function, whose instance has copied the given variables. -/
def newTwin (ref : UnitRef) (closure : Option ClosureRef) (wE : World) (name : Option String) (params : List Param)
    (body : Tree) (capture : Capture) (captured : Activation) : Twin :=
  ⟨ref, closure, ⟨wE.lambdas.size⟩, name, params, body, capture, captured.toList.map Prod.fst⟩

/-- Worlds in which both sides have made a new function. -/
theorem Paired.make {w' : World} {closure : Option ClosureRef} {captured : Activation} (h : C.Paired κ w wE)
    (hm : C.Makes params body name m ref capture) (hclosure : closure.isSome = !capture.isEmpty)
    (hheap : w'.heap = w.heap) (hkept : ∀ (i : Nat) c, w.closures[i]? = some c → w'.closures[i]? = some c)
    (hnew : ∀ r, closure = some r → w.closures.size ≤ r.id ∧ ∃ c, w'.closures[r.id]? = some c ∧
      (newTwin ref closure wE name params body capture captured).Items C κ c.items captured) :
    C.Paired (insert (newTwin ref closure wE name params body capture captured) κ) w'
      (wE.newLambda ⟨name, params, body, captured⟩).2 := by
  refine h.extend (hheap.trans h.heap) hkept (fun i l hl => ?_) ⟨hm.made _ _ _ hclosure, captured, ?_, rfl,
    ?_⟩ ?_ le_rfl
  · obtain ⟨hlt, rfl⟩ := Array.getElem?_eq_some_iff.1 hl
    exact Array.getElem?_push_lt hlt
  · exact Array.getElem?_push_size
  · intro r hr
    obtain ⟨-, c, hc, hitems⟩ := hnew r hr
    exact ⟨c, hc, hitems.mono (Set.subset_insert _ κ)⟩
  · exact fun r hr => (hnew r hr).1

end Converted

/-- The values on the stack go into a closure, which goes to the code below them. -/
theorem MachineM.effects_curry {fc : FrameContext} {f : Frame} {l : Layout} {items base : List Value} {u : UnitRef}
    (hlen : items.length = l.size) (hne : items ≠ []) (hstack : f.stack = items.reverse ++ .code u :: base) :
    CodeUnit.effects [.newClosure l, .curry] fc (f, w) =
      (.ok (), { f with stack := .func (.code u (some ⟨w.closures.size⟩)) :: base },
        (w.newClosure ⟨l.strategy, items.toArray⟩).2) := by
  have hclosure : effect (.newClosure l) fc (f, w) =
      (.ok (), { f with stack := .closure ⟨w.closures.size⟩ :: .code u :: base },
        (w.newClosure ⟨l.strategy, items.toArray⟩).2) := by
    rw [effect, newClosure, Act.bind_ok (popMany_apply hstack (by simpa using hlen)), List.reverse_reverse,
      Layout.instantiate, if_neg (by simpa using hlen), if_neg (fun hempty => hne hempty.2)]
    rfl
  rw [CodeUnit.effects_cons, Act.bind_ok hclosure, CodeUnit.effects_one,
    effect, curry, Act.bind_ok (pop_apply rfl), Act.bind_ok (pop_apply rfl)]
  rfl

namespace Converted

open Bridge EmitM

variable {S : Surroundings C} {id : NodeId} {ty : Ty} {params : List Param} {body : Tree} {name : Option String}

/-- A new closure holds what its twin has captured. -/
theorem items_of_loads {vars : Activation} {tw : Twin} {child : Capture} {us vs : List Value}
    (hplain : tw.capture.plain = child.plain) (hus : List.Forall₂ (C.Sees t κ vars wE) child.params us)
    (hvs : List.Forall₂ C.IsItem child.nested vs) :
    tw.Items C κ (us ++ vs).toArray (EvalM.capturedBy wE (some t.lambda) ++ vars) where
  params i p hi := by
    have hparams : tw.capture.params = child.params := by
      rw [← Capture.plain_params, hplain, Capture.plain_params]
    obtain ⟨hlt, hp, -⟩ := List.findIdx?_eq_some_iff_getElem.1 hi
    have hp : tw.capture.params[i] = p := beq_iff_eq.1 hp
    have hlt' : i < child.params.length := hparams ▸ hlt
    obtain ⟨a, j, ha, hstands⟩ := hus.get hlt' (hus.length_eq ▸ hlt')
    have hget : child.params.get ⟨i, hlt'⟩ = p := by
      rw [← hp]
      simp [hparams]
    rw [hget] at ha hstands
    refine ⟨_, a, j, ?_, by simpa using ha, hstands⟩
    have := hus.length_eq
    rw [List.getElem?_toArray, List.getElem?_append_left (by omega)]
    exact List.getElem?_eq_getElem _
  nested i n hn := by
    have hnested : tw.capture.nested.map NestedOf.plain = child.nested.map NestedOf.plain := by
      rw [← Capture.plain_nested, hplain, Capture.plain_nested]
    have hparams : tw.capture.params = child.params := by
      rw [← Capture.plain_params, hplain, Capture.plain_params]
    have hmap : (child.nested.map NestedOf.plain)[i]? = some n.plain := by
      rw [← hnested, List.getElem?_map, hn]
      rfl
    rw [List.getElem?_map] at hmap
    obtain ⟨n', hn', hplain'⟩ := Option.map_eq_some_iff.1 hmap
    obtain ⟨hlt, rfl⟩ := List.getElem?_eq_some_iff.1 hn'
    obtain ⟨m, hm, hm', hv⟩ := hvs.get hlt (hvs.length_eq ▸ hlt)
    refine ⟨_, ?_, m, hm, hm'.trans hplain', hv⟩
    rw [hparams, hus.length_eq, List.getElem?_toArray, List.getElem?_append_right (by omega), Nat.add_sub_cancel_left]
    exact List.getElem?_eq_getElem _

/-- Instructions make a function next to the evaluator, which makes an instance with all variables in sight, unless a
check fails of which nothing is said. -/
def MakesTwin (C : Converted) (S : Surroundings C) (t : Twin) (ctx : EmitContext) (params : List Param) (body : Tree)
    (name : Option String) (is : List Instr) : Prop :=
  ∀ κ handling f vars w wE, (C.bridge S t).Corresponds ctx κ handling f vars → (C.bridge S t).world κ w wE →
    (C.bridge S t).Halts f w is ∨ ∃ ref closure capture w',
      CodeUnit.effects is (C.bridge S t).machine (f, w) =
        (.ok (), { f with stack := .func (.code ref closure) :: f.stack }, w') ∧
      C.Paired (insert (newTwin ref closure wE name params body capture (EvalM.capturedBy wE (some t.lambda) ++ vars))
        κ) w' (wE.newLambda ⟨name, params, body, EvalM.capturedBy wE (some t.lambda) ++ vars⟩).2

variable {n : Nested} {b b' : Builder}

/-- A lambda without captures: its unit is the function. -/
theorem makesTwin_bare {slot : Nat} (ho : Tree.Occurs (.node id ty (.lambda params body name)) C.root)
    (hid : n.node = id) (hcapture : n.capture = none)
    (hitem : Puts (C.bridge S t) ctx (loadItem slot n.itemType) fun _ _ _ vs => ∃ v, vs = [v] ∧ C.IsItem n v)
    (hbuild : Emit.building slot n ctx b = .ok ((), b')) :
    ∃ is : List Instr, (is.forM emit) ctx b = .ok ((), b') ∧ (∀ i ∈ is, i ≠ .ret ∧ i.endsFlow = false) ∧
      C.MakesTwin S t ctx params body name is := by
  have hcode : Emit.building slot n = loadItem slot n.itemType := by
    unfold Emit.building
    simp only [hcapture]
    exact bind_pure_unit
  rw [hcode] at hbuild
  obtain ⟨is, his, hplain, hputs⟩ := hitem b b' hbuild
  refine ⟨is, his, hplain, fun κ handling f vars w wE hcorr hworld => ?_⟩
  refine (hputs κ handling f vars w wE hcorr hworld).imp_right ?_
  rintro ⟨us, hus, v, rfl, m, hm, hm', rfl⟩
  obtain ⟨ref, capture, hmakes⟩ := C.makes ho hm ((congrArg NestedOf.node hm').trans hid)
  have hbare : m.capture = none := by
    have := congrArg NestedOf.capture hm'
    simpa [hcapture] using this
  obtain ⟨hempty, hvalue⟩ := hmakes.bare hbare
  refine ⟨ref, none, capture, w, ?_, ?_⟩
  · rw [hus.run rfl, hvalue]
    rfl
  · exact hworld.2.make hmakes (by rw [hempty]; rfl) rfl (fun _ _ h => h) (by rintro r ⟨⟩)

/-- A lambda with captures: what is on the stack goes into a closure for its unit. -/
theorem makesTwin_curryable {slot : Nat} {child : Capture} {b₀ : Builder} (hw : t.Within C ctx) (hfit : ctx.Fits b₀)
    (ho : Tree.Occurs (.node id ty (.lambda params body name)) C.root) (hid : n.node = id)
    (hn : n.Compiled C.compiler C.root C.units) (hcapture : n.capture = some child)
    (hitem : Puts (C.bridge S t) ctx (loadItem slot n.itemType) fun _ _ _ vs => ∃ v, vs = [v] ∧ C.IsItem n v)
    (hbuild : Emit.building slot n ctx b = .ok ((), b')) :
    ∃ is : List Instr, (is.forM emit) ctx b = .ok ((), b') ∧ (∀ i ∈ is, i ≠ .ret ∧ i.endsFlow = false) ∧
      C.MakesTwin S t ctx params body name is := by
  have hchild := hn.capture (s := ⟨{}, C.units, #[]⟩) hcapture
  obtain ⟨_, _, hmakes⟩ := C.makes ho hn hid
  obtain ⟨rfl, hnonempty, hartifact⟩ := hmakes.curryable hcapture
  rw [Emit.building_curryable hcapture hartifact (C.no_constants hchild)] at hbuild
  obtain ⟨⟨⟩, b₁, hloads, hcurry⟩ := EmitM.bind_eq_ok hbuild
  have hputs := hitem.bind ((Puts.forM fun p (_ : p ∈ child.params) => puts_variable hw hfit p).bind
    (Puts.forM fun n hn => puts_nested hw (hchild.nested n hn)))
  obtain ⟨is, his, hplain, hputs⟩ := hputs b b₁ hloads
  refine ⟨is ++ [.newClosure (child.layout C.limit), .curry], ?_, ?_, fun κ handling f vars w wE hcorr hworld => ?_⟩
  · rw [forM_emit_append, EmitM.bind_apply, his]
    exact hcurry
  · refine List.forall_mem_append.2 ⟨hplain, ?_⟩
    simp [Instr.endsFlow]
  · rcases hputs κ handling f vars w wE hcorr hworld with
      hhalts | ⟨vs, hvs, _, _, rfl, ⟨v, rfl, m, hm, hm', rfl⟩, us, ws, rfl, hus, hws⟩
    · exact .inl (hhalts.append _)
    -- the item may come from another compilation of the lambda, which captures the same
    obtain ⟨ref, capture, hmakes'⟩ := C.makes ho hm ((congrArg NestedOf.node hm').trans hid)
    obtain ⟨child', hchild', hsame⟩ : ∃ child', m.capture = some child' ∧ child'.plain = child.plain := by
      have := congrArg NestedOf.capture hm'
      simpa [hcapture] using this
    obtain ⟨rfl, hempty, hartifact'⟩ := hmakes'.curryable hchild'
    have hlen : (us ++ ws).length = (child.layout C.limit).size := by
      rw [Capture.size_layout, Capture.size, C.no_constants hchild, List.length_append, ← hus.length_eq,
        ← hws.length_eq]
      simp
    have hne : us ++ ws ≠ [] := by
      intro hnil
      rw [hnil, Capture.size_layout] at hlen
      rw [Capture.isEmpty, ← hlen] at hnonempty
      cases hnonempty
    refine .inr ⟨ref, some ⟨w.closures.size⟩, child',
      (w.newClosure ⟨(child.layout C.limit).strategy, (us ++ ws).toArray⟩).2, ?_, ?_⟩
    · rw [CodeUnit.effects_append, Act.bind_ok (hvs.run rfl), hartifact']
      refine MachineM.effects_curry hlen hne ?_
      simp [Artifact.itemValue]
    · refine hworld.2.make hmakes' (by rw [hempty]; rfl) rfl (fun i c hc => ?_) fun r hr => ?_
      · obtain ⟨hlt, rfl⟩ := Array.getElem?_eq_some_iff.1 hc
        exact Array.getElem?_push_lt hlt
      · cases hr
        exact ⟨le_rfl, _, Array.getElem?_push_size, items_of_loads hsame hus hws⟩

/-- A lambda: both sides make a function. -/
theorem lambda (hw : t.Within C ctx) (ho : Tree.Occurs (.node id ty (.lambda params body name)) C.root) :
    (C.bridge S t).Code ctx [] 1 (Emit.lambda id) (Eval.instantiate params body name) fun a => [(ty, a)] := by
  have hemits : Emits ctx 0 1 (Emit.lambda id) :=
    Emit.emits_lambda id (by rw [hw.capture]; exact hw.made.captures.coherent)
  refine ⟨hemits,
    fun {b b' D u} ht hfit hpast hrun hlink {κ handling f vars w wE vs base} hready hstack hlen hpre => ?_⟩
  obtain ⟨D', hadds⟩ := (hemits b D ht (by simp)).result hrun
  cases hpre
  obtain ⟨i, l, slot, n, hi, hl, hslot, hn, hbuild⟩ := Emit.lambda_inv hrun
  rw [hw.capture] at hi hn
  have hnode := Capture.node_of_index hi hn
  have hitem := puts_item (S := S) hw hl hslot hn
  obtain ⟨is, his, hplain, hmakes⟩ : ∃ is : List Instr, (is.forM emit) ctx b = .ok ((), b') ∧
      (∀ i ∈ is, i ≠ .ret ∧ i.endsFlow = false) ∧ C.MakesTwin S t ctx params body name is := by
    rcases hcapture : n.capture with _ | child
    · exact makesTwin_bare ho hnode hcapture hitem hbuild
    · exact makesTwin_curryable hw hfit ho hnode (hw.made.captures.nested n (List.mem_of_getElem? hn)) hcapture
        hitem hbuild
  refine .straight his hadds hpast hlink (fun i hi => (hplain i hi).1) (.inl fun i hi => (hplain i hi).2) hready hstack
    hlen ?_
  rcases hmakes κ handling f vars w wE hready.corresponds hready.world with
    ⟨stop, hM, hstop⟩ | ⟨ref, closure, capture, w', heffects, hpaired⟩
  · exact .inl (.inr ⟨stop, hM, hstop f.stack⟩)
  have heval : Eval.instantiate params body name ((C.bridge S t).eval handling) (vars, wE) =
      (.ok (.func (.interpreted ⟨wE.lambdas.size⟩)), vars,
        (wE.newLambda ⟨name, params, body, EvalM.capturedBy wE (some t.lambda) ++ vars⟩).2) := rfl
  rw [heval, heffects, hstack]
  refine .inr ⟨_, _, w', [_], rfl, hready.corresponds.after (Set.subset_insert _ κ) rfl rfl, rfl, rfl, rfl, ?_,
    Set.mem_insert_of_mem _ hready.world.1, hpaired⟩
  rw [show ty = .func (params.map Param.ty) body.ty from (C.typed.of_occurs ho).2.1]
  exact .cons (.function (Set.mem_insert _ κ)) .nil

end Converted

end ExprCompiler
