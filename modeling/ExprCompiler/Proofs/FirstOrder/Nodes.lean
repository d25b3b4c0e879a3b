/-
Nodes of the first-order language. Where no struct is involved, receivers are values and not addresses, and
the code of a node acts on the world as the evaluator does with the same operands. Each kind of node has a
rule that takes the simulations of its children.
-/
import ExprCompiler.Proofs.FirstOrder.Same

namespace ExprCompiler

/-! ## The evaluator on values without a home -/

theorem Evaluated.receiver_of_not_isStruct {f : Tree → Meaning} {t : Tree} (h : t.ty.isStruct = false) :
    Evaluated.receiver (.of f t) = do return .root (.temp (← Evaluated.value (.of f t))) := by
  simp [receiver, h]

theorem Emitted.receiver_of_not_isStruct {t : Tree} (h : t.ty.isStruct = false) :
    Emitted.receiver (.of Tree.emission t) = Emitted.value (.of Tree.emission t) := by
  simp [receiver, h]

/-- What is stored into a value without a home is lost. -/
theorem EvalM.update_temp {α : Type} (v : Value) (g : Value → EvalM (Value × Except Stop α)) :
    (Place.root (.temp v)).update EvalM.access g = g v >>= fun x => MonadExcept.ofExcept x.2 := by
  have hkeep : ∀ (u : Value) (r : Except Stop α),
      Place.keep EvalM.access (.root (.temp v)) u r = (pure () : EvalM Unit) := by
    rintro u ((_ | _ | _) | _) <;> rfl
  have hread : Place.read EvalM.access (.root (.temp v)) = (pure v : EvalM Value) := rfl
  simp [Place.update, hread, hkeep]

theorem Act.settle_bind {ρ σ α β : Type} (r : Except Cause α) (g : α → Except Cause β) :
    (Act.settle (r >>= g) : Act ρ σ β) = Act.settle r >>= fun a => Act.settle (g a) := by
  cases r with
  | ok a => rfl
  | error c =>
    funext ctx s
    exact (Act.bind_error (Act.raise_apply c ctx s) _).symm

variable {ec : EvalContext}

/-- A call of the host on a receiver, for its result only. -/
theorem EvalM.onWorld_hostCall (fn : HostRef) (receiver : Value) (args : List Value) :
    (EvalM.hostCall fn receiver args >>= fun x => MonadExcept.ofExcept x.2 : EvalM Value).OnWorld ec
      fun w => w.hosted ec.lib ec.inv fn receiver args :=
  fun s w => Act.hostValue_apply ec.lib ec.inv fn receiver args ec (s, w)

theorem EvalM.onWorld_hostValue (fn : HostRef) (receiver : Value) (args : List Value) :
    (EvalM.hostValue fn receiver args).OnWorld ec fun w => w.hosted ec.lib ec.inv fn receiver args :=
  fun s w => Act.hostValue_apply ec.lib ec.inv fn receiver args ec (s, w)

theorem EvalM.onWorld_callStatic (m : Method) (args : List Value) :
    (EvalM.callStatic m args).OnWorld ec fun w => w.hosted ec.lib ec.inv m.impl .null args :=
  EvalM.onWorld_hostValue m.impl .null args

theorem EvalM.onWorld_hostOn (fn : HostRef) (receiver : Value) (args : List Value) :
    (EvalM.hostOn fn receiver args >>= fun x => MonadExcept.ofExcept x.2 : EvalM Value).OnWorld ec
      fun w => w.hostedOn ec.lib ec.inv fn receiver args := by
  intro s w
  unfold EvalM.hostOn World.hostedOn
  split
  · exact Act.bind_error (Act.raise_apply .nullReference ec (s, w)) _
  · exact EvalM.onWorld_hostCall fn receiver args s w

/-! ## The code of a chosen form -/

namespace Emit

open EmitM

variable {ctx : EmitContext} {l r : Emitted} {method : Option Method}

theorem compare_of_none {op : CmpOp} (h : CompareForm.choose? ctx.operators op l.ty r.ty method = none) (b : Builder) :
    compare op l r method ctx b = decline (.noOperator op.name l.ty r.ty) ctx b := by
  unfold compare
  rw [bind_apply, read_apply]
  simp only [h]

theorem compare_of_some {op : CmpOp} {form : CompareForm}
    (h : CompareForm.choose? ctx.operators op l.ty r.ty method = some form) (b : Builder) :
    compare op l r method ctx b = (do l.value; r.value; (compareInstrs op form).forM emit : EmitM Unit) ctx b := by
  unfold compare
  rw [bind_apply, read_apply]
  simp only [h]

theorem arith_of_none {op : ArithOp} {checked : Bool}
    (h : ArithForm.choose? ctx.operators op l.ty r.ty checked method = none) (b : Builder) :
    arith op l r checked method ctx b = decline (.noOperator op.name l.ty r.ty) ctx b := by
  unfold arith
  rw [bind_apply, read_apply]
  simp only [h]

theorem arith_of_some {op : ArithOp} {checked : Bool} {form : ArithForm}
    (h : ArithForm.choose? ctx.operators op l.ty r.ty checked method = some form) (b : Builder) :
    arith op l r checked method ctx b = (do l.value; r.value; emit (arithInstr op form) : EmitM Unit) ctx b := by
  unfold arith
  rw [bind_apply, read_apply]
  simp only [h]

end Emit

namespace Same

open EmitM Bridge

variable {S : Setting} {ctx : EmitContext} {ty ty' : Ty}
  {usage : Usage} {args : List Tree} {method : Option Method}

/-! ## Constants -/

theorem constant {v : Value} (h : v.isImmediate = true) (id : NodeId) :
    (same S).Code ctx [] 1 (Emit.constant id v) (pure v) fun a => [(ty, a)] := by
  unfold Emit.constant
  rw [if_pos h]
  refine Sim.shuffle rfl (.emit (.const v) rfl) rfl fun κ vs _ hvs => ?_
  cases hvs
  exact ⟨[v], MachineM.shuffles_const v, rfl, .cons ⟨rfl, Value.portable_of_isImmediate h⟩ .nil⟩

theorem default (ty : Ty) : (same S).Code ctx [] 1 (emit (.default ty)) (pure ty.zero) fun a => [(ty', a)] := by
  refine Sim.shuffle rfl (.emit (.default ty) rfl) rfl fun κ vs _ hvs => ?_
  cases hvs
  exact ⟨[ty.zero], MachineM.shuffles_default ty, rfl, .cons ⟨rfl, ty.portable_zero⟩ .nil⟩

/-! ## Calls of the host -/

/-- A method behind an operator or a conversion. -/
theorem backed {m : Method} {n : Nat} {before : List (Ty × Value)} (args : List Value) (hT : S.Tame)
    (hm : m.Backs n ty) (hb : before.map Prod.snd = args.reverse) (hlen : args.length = n) :
    (same S).Code ctx before ty.count (emit (.call m)) (EvalM.callStatic m args) ty.leaves := by
  have hparams : args.length = m.params.length := hlen.trans hm.params.symm
  refine act_leaves args.reverse rfl rfl hb ?_ ?_ fun hargs => ?_
  · simp [Instr.pops, hm.static, hparams]
  · simp [Instr.pushes, Ty.count, hm.void]
  · refine ⟨_, ?_, fun _ => EvalM.onWorld_callStatic m args, fun w hw => hT.host _ _ _ w hw .null ?_⟩
    · rw [hm.void]
      exact MachineM.performs_call_static hm.static hparams
    · exact fun v hv => hargs v (List.mem_reverse.2 hv)

variable (hT : S.Tame)

include hT

/-- A method call; a null receiver throws. -/
theorem call {receiver : Option Tree} {m : Method}
    (hr : ∀ r ∈ receiver, (same S).Used ctx .value r) (hs : ∀ r ∈ receiver, r.ty.isStruct = false)
    (ha : ∀ t ∈ args, (same S).Used ctx .value t) (hlen : args.length = m.params.length)
    (hv : ty.isVoid = m.ret.isVoid) :
    (same S).Code ctx [] ty.count
      (Emit.call (receiver.map (.of Tree.emission)) m (args.map (.of Tree.emission)))
      (Eval.callMethod (receiver.map (.of S.meaning)) m (args.map (.of S.meaning))) ty.leaves := by
  have hpushes : (Instr.call m).pushes = ty.count := by simp [Instr.pushes, Ty.count, hv]
  unfold Emit.call Eval.callMethod
  rcases receiver with _ | r <;> rcases hstatic : m.isStatic with _ | _
  · exact Sim.declined _ _
  · -- a static method
    simp only [Option.map_none]
    refine Code.bind_values ha fun as has => Code.unlessVoid hv ?_
    refine act_leaves as.reverse rfl rfl (by simp) ?_ hpushes fun hargs => ?_
    · simp [Instr.pops, hstatic, has, hlen]
    · refine ⟨_, ?_, fun _ => EvalM.onWorld_callStatic m as, fun w hw => hT.host _ _ _ w hw .null ?_⟩
      · rw [hv]
        exact MachineM.performs_call_static hstatic (has.trans hlen)
      · exact fun v hv => hargs v (List.mem_reverse.2 hv)
  · -- an instance method
    simp only [Option.map_some]
    rw [Emitted.receiver_of_not_isStruct (hs r rfl), Evaluated.receiver_of_not_isStruct (hs r rfl)]
    simp only [bind_assoc, pure_bind, EvalM.update_temp]
    refine Code.bind_one (hr r rfl).value fun v => Code.bind_values ha fun as has => ?_
    have hcode : (same S).Code ctx ((withTypes (args.map Tree.ty) as).reverse ++ [(r.ty, v)]) ty.count
        (emit (.call m)) (EvalM.hostOn m.impl v as >>= fun x => MonadExcept.ofExcept x.2) ty.leaves := by
      refine act_leaves (as.reverse ++ [v]) rfl rfl (by simp) ?_ hpushes fun hall => ?_
      · simp [Instr.pops, hstatic, has, hlen]
      · obtain ⟨hargs, hrecv⟩ := List.forall_mem_append.1 hall
        have hrecv : v.Portable S.F := hrecv v List.mem_cons_self
        refine ⟨_, ?_, fun _ => EvalM.onWorld_hostOn m.impl v as, fun w hw => hT.sound_hostedOn hw hrecv ?_⟩
        · rw [hv]
          exact MachineM.performs_call_instance hstatic hrecv.ne_addr (has.trans hlen)
        · exact fun u hu => hargs u (List.mem_reverse.2 hu)
    have hvoid := Code.unlessVoid hv hcode
    simp only [bind_assoc] at hvoid
    exact hvoid
  · exact Sim.declined _ _

theorem new {ctor : Constructor}
    (ha : ∀ t ∈ args, (same S).Used ctx .value t) (hlen : args.length = ctor.params.length) :
    (same S).Code ctx [] 1 (do Emit.values (args.map (.of Tree.emission)); emit (.new ctor))
      (do EvalM.hostValue ctor.impl .null (← Eval.values (args.map (.of S.meaning)))) fun a => [(ty, a)] := by
  refine Code.bind_values ha fun as has => act_one as.reverse rfl rfl (by simp) ?_ rfl fun hargs => ?_
  · simp [Instr.pops, has, hlen]
  · refine ⟨_, MachineM.performs_new (has.trans hlen), fun _ => EvalM.onWorld_hostValue ctor.impl .null as,
      fun w hw => ?_⟩
    exact hT.host _ _ _ w hw .null fun v hv => hargs v (List.mem_reverse.2 hv)

/-- Indexed access; a null receiver throws. -/
theorem index {receiver : Tree} {ix : Indexer}
    (hr : (same S).Used ctx .value receiver) (hs : receiver.ty.isStruct = false)
    (ha : ∀ t ∈ args, (same S).Used ctx .value t) (hlen : args.length = ix.params.length) :
    (same S).Code ctx [] 1 (do
        Emitted.receiver (.of Tree.emission receiver)
        Emit.values (args.map (.of Tree.emission))
        emit (.getIndex ix)) (do
        let r ← Evaluated.value (.of S.meaning receiver)
        let args ← Eval.values (args.map (.of S.meaning))
        if r.isNull then Act.raise .nullReference
        else EvalM.hostValue ix.getter r args) fun a => [(ty, a)] := by
  rw [Emitted.receiver_of_not_isStruct hs]
  refine Code.bind_one hr.value fun v => Code.bind_values ha fun as has => ?_
  refine act_one (as.reverse ++ [v]) rfl rfl (by simp) ?_ rfl fun hall => ?_
  · simp [Instr.pops, has, hlen]
  · obtain ⟨hargs, hrecv⟩ := List.forall_mem_append.1 hall
    have hrecv : v.Portable S.F := hrecv v List.mem_cons_self
    refine ⟨_, MachineM.performs_getIndex hrecv.ne_addr ix (has.trans hlen), fun _ s w => ?_,
      fun w hw => hT.sound_hostedOn hw hrecv fun u hu => hargs u (List.mem_reverse.2 hu)⟩
    unfold World.hostedOn
    split
    · exact Act.raise_apply .nullReference _ (s, w)
    · exact EvalM.onWorld_hostValue ix.getter v as s w

/-- A call of a function value. -/
theorem invoke {target : Tree}
    (ht : (same S).Used ctx .value target) (ha : ∀ t ∈ args, (same S).Used ctx .value t) :
    (same S).Code ctx [] ty.count (Emit.invoke ty (.of Tree.emission target) (args.map (.of Tree.emission)))
      (Eval.value ty (.invoke (.of S.meaning target) (args.map (.of S.meaning)))) ty.leaves := by
  unfold Emit.invoke
  refine Sim.ite (fun _ => .declined _ _) fun _ => ?_
  refine Code.bind_one ht.value fun f => Code.bind_values ha fun as has => ?_
  have hcode : (same S).Code ctx ((withTypes (args.map Tree.ty) as).reverse ++ [(target.ty, f)]) ty.count
      (emit (.invoke (args.map (Tree.Child.of Tree.emission)).length (!ty.isVoid)))
      (do Act.invoke (← read).inv f as) ty.leaves := by
    refine act_leaves (as.reverse ++ [f]) rfl rfl (by simp) ?_ ?_ fun hall => ?_
    · simp [Instr.pops, has]
    · cases hvoid : ty.isVoid <;> simp [Instr.pushes, Ty.count, hvoid]
    · obtain ⟨hargs, hf⟩ := List.forall_mem_append.1 hall
      refine ⟨_, ?_, fun _ => Act.onWorld_invoke S.inv f as, fun w hw =>
        hT.sound_invoked hw (hf f List.mem_cons_self) fun u hu => hargs u (List.mem_reverse.2 hu)⟩
      have hperf : MachineM.Performs ⟨S.lib, S.inv, none⟩ (.invoke as.length (!ty.isVoid)) (as.reverse ++ [f])
          (fun w => w.invoked S.inv f as) fun v => if !ty.isVoid then [v] else [] := MachineM.performs_invoke f
            (!ty.isVoid)
      rw [List.length_map, ← has]
      cases hvoid : ty.isVoid <;> simpa [hvoid] using hperf
  have hvoid := Code.unlessVoid rfl hcode
  simp only [bind_assoc] at hvoid
  exact hvoid

/-! ## Conversions -/

/-- The steps of a conversion, one after the other. -/
theorem conversion : ∀ (steps : List ConvStep) (ty : Ty) (v : Value),
    (same S).Code ctx [(ty, v)] 1 (steps.forM fun s => emit (Emit.stepInstr s))
      (Act.settle (applyConversion v steps)) fun u => [(ty', u)]
  | [], ty, v => by
    refine Sim.nothing fun κ vs hvs => ?_
    obtain ⟨u, rfl, hu⟩ := Holds.one hvs
    exact .cons hu .nil
  | s :: steps, ty, v => by
    have hstep : (same S).Code ctx [(ty, v)] 1 (emit (Emit.stepInstr s)) (Act.settle (s.apply v))
        fun u => [(ty, u)] := by
      refine unary (g := fun v => s.apply v) hT ?_ ?_ ?_ ?_ ?_ fun u hv hu => ?_
      · cases s <;> rfl
      · cases s <;> rfl
      · cases s <;> rfl
      · cases s <;> rfl
      · cases s <;> rfl
      · cases s with
        | numeric ty mode => exact Value.portable_of_isImmediate (Value.convert_isImmediate hu)
        | unwrap => rwa [Value.unwrap_eq hu]
        | unbox ty => rwa [Value.unbox_eq hu]
        | cast ty => rwa [Value.castClass_eq hu]
    rw [applyConversion, List.foldlM_cons, Act.settle_bind]
    exact Code.bind_one hstep fun u => conversion steps ty u

theorem convert {operand : Tree} {checked : Bool}
    (ho : (same S).Used ctx .value operand) (hm : ∀ m ∈ method, m.Backs 1 ty)
    (hv : method = none → ty.isVoid = false) :
    (same S).Code ctx [] ty.count (Emit.convert ty (.of Tree.emission operand) checked method)
      (Eval.convert ty (.of S.meaning operand) checked method) ty.leaves := by
  cases method with
  | some m => exact Code.bind_one ho.value fun a => backed [a] hT (hm m rfl) rfl rfl
  | none =>
    unfold Emit.convert Eval.convert
    simp only [Tree.Child.ty_of]
    rw [Ty.count_eq_one (hv rfl), funext (Ty.leaves_of_not_isVoid (hv rfl))]
    rcases planConversion? operand.ty ty checked with _ | steps
    · exact Sim.decline _
    · exact Code.bind_one ho.value fun a => conversion hT steps _ a

/-! ## Members and elements -/

theorem readMember {receiver : Option Tree} {m : Member}
    (hr : ∀ r ∈ receiver, (same S).Used ctx .value r) (hs : ∀ r ∈ receiver, r.ty.isStruct = false) :
    (same S).Code ctx [] 1 (Emit.readMember (receiver.map (.of Tree.emission)) m)
      (Eval.readMember (receiver.map (.of S.meaning)) m) fun a => [(ty, a)] := by
  have hmismatch : (same S).Code ctx [] 1 (do EmitM.decline (.readMismatch (← EmitM.check m.describe)))
      (Eval.readMember (receiver.map (.of S.meaning)) m) fun a => [(ty, a)] := by
    refine Sim.of_refused ?_ fun b b' hrun => ?_
    · exact EmitM.Emits.bind (.check fun _ => Emit.isOfCode_describe) fun _ => .decline _
    · obtain ⟨d, b₁, -, hno⟩ := EmitM.bind_eq_ok hrun
      cases hno
  cases m with
  | static s =>
    cases receiver with
    | some r => exact hmismatch
    | none =>
      refine act_one [] rfl rfl rfl rfl rfl fun _ => ?_
      refine ⟨_, MachineM.performs_loadStatic s, fun _ _ _ => rfl, fun w hw => ⟨hw, ?_, by rintro v ⟨⟩⟩⟩
      rintro v ⟨⟩
      exact (hT.heap w hw).loadStatic s
  | field cls i =>
    cases receiver with
    | none => exact hmismatch
    | some r =>
      simp only [Emit.readMember, Eval.readMember, Option.map_some]
      rw [Emitted.receiver_of_not_isStruct (hs r rfl)]
      refine Code.bind_one (hr r rfl).value fun v => act_one [v] rfl rfl rfl rfl rfl fun hv => ?_
      have hv : v.Portable S.F := hv v List.mem_cons_self
      refine ⟨_, MachineM.performs_loadField hv.ne_addr i, fun _ s w => ?_, fun w hw => ?_⟩
      · rw [Act.bind_ok (Act.heap_apply _ (s, w))]
        exact Act.attempt_apply _ _ (s, w)
      · exact hT.sound_attempted hw fun u hu => (hT.heap w hw).loadField hv hu
  | property p =>
    have hget : ∀ (source : Ty) (v : Value), (same S).Code ctx [(source, v)] 1 (emit (.getProperty p))
        (EvalM.hostValue p.getter v []) fun a => [(ty, a)] := by
      intro source v
      refine act_one [v] rfl rfl rfl rfl rfl fun hv => ?_
      have hv : v.Portable S.F := hv v List.mem_cons_self
      exact ⟨_, MachineM.performs_getProperty hv.ne_addr p, fun _ => EvalM.onWorld_hostValue p.getter v [],
        fun w hw => hT.host _ _ _ w hw hv (by simp)⟩
    cases receiver with
    | none =>
      have hnull : (same S).Code ctx [] 1 (emit (.const .null)) (pure ()) fun _ => [(ty, .null)] := by
        refine Sim.shuffle rfl (.emit (.const .null) rfl) rfl fun κ vs _ hvs => ?_
        cases hvs
        exact ⟨[.null], MachineM.shuffles_const .null, rfl, .cons ⟨rfl, .null⟩ .nil⟩
      exact hnull.before (hget ty .null)
    | some r =>
      simp only [Emit.readMember, Eval.readMember, Option.map_some]
      rw [Emitted.receiver_of_not_isStruct (hs r rfl)]
      exact Code.bind_one (hr r rfl).value fun v => hget r.ty v

theorem arrayIndex {array idx : Tree} (ha : (same S).Used ctx .value array)
    (hi : (same S).Used ctx .value idx) :
    (same S).Code ctx [] 1 (do
        Emitted.value (.of Tree.emission array)
        Emitted.value (.of Tree.emission idx)
        emit .loadElem) (do
        let a ← Evaluated.value (.of S.meaning array)
        let i ← Evaluated.value (.of S.meaning idx)
        Act.settle ((← Act.heap).arrayGet a i)) fun a => [(ty, a)] := by
  refine Code.bind_two ha.value hi.value fun a i => act_one [i, a] rfl rfl rfl rfl rfl fun _ => ?_
  refine ⟨_, MachineM.performs_heap_binary (g := Heap.arrayGet) rfl a i, fun _ s w => ?_, fun w hw => ?_⟩
  · rw [Act.bind_ok (Act.heap_apply _ (s, w))]
    exact Act.settle_apply _ _ (s, w)
  · exact hT.sound_settled hw fun u hu => (hT.heap w hw).arrayGet hu

theorem newArray {elem : Ty} {items : List Tree} (hi : ∀ t ∈ items, (same S).Used ctx .value t) :
    (same S).Code ctx [] 1 (do
        if Emit.maxCount < (items.map (Tree.Child.of Tree.emission)).length then EmitM.decline (.tooMany "array items")
        Emit.values (items.map (.of Tree.emission))
        emit (.newArrayOf elem (items.map (Tree.Child.of Tree.emission)).length)) (do
        let items ← Eval.values (items.map (.of S.meaning))
        Act.allocate fun h => h.newArray elem items.toArray) fun a => [(ty, a)] := by
  refine Sim.ite (fun _ => .declined _ _) fun _ => ?_
  refine Code.bind_values hi fun as has => act_one as.reverse rfl rfl (by simp) ?_ rfl fun hargs => ?_
  · simp [Instr.pops, has]
  · refine ⟨_, ?_, fun _ => Act.onWorld_allocate fun h => h.newArray elem as.toArray, fun w hw => ?_⟩
    · rw [List.length_map, ← has]
      exact MachineM.performs_newArrayOf elem
    · refine hT.sound_allocated hw (.array _) ((hT.heap w hw).newArray elem fun v hv => hargs v ?_)
      simpa using hv

theorem newArrayOfLength {elem : Ty} {length : Tree} (hl : (same S).Used ctx .value length) :
    (same S).Code ctx [] 1 (do Emitted.value (.of Tree.emission length); emit (.newArray elem)) (do
        let n ← Evaluated.value (.of S.meaning length)
        let (v, h) ← Act.attempt ((← Act.heap).newArrayOfLength elem n)
        Act.setHeap h
        return v) fun a => [(ty, a)] := by
  refine Code.bind_one hl.value fun n => act_one [n] rfl rfl rfl rfl rfl fun _ => ?_
  exact ⟨_, MachineM.performs_newArray elem n, fun _ => Act.onWorld_build fun h => h.newArrayOfLength elem n,
    fun w hw => hT.sound_built hw fun _ hx => (hT.heap w hw).newArrayOfLength hx⟩

/-! ## Operators -/

/-- Generic equality, or its negation. -/
theorem genericEq (op : CmpOp) (l r : Value) {tl tr : Ty} :
    (same S).Code ctx [(tr, r), (tl, l)] 1 ((Emit.compareInstrs op .generic).forM emit)
      (pure (.bool (l.same r == (op == .eq)))) fun a => [(ty, a)] := by
  have hsame : (same S).Code ctx [(tr, r), (tl, l)] 1 (emit .genericEq) (pure (.bool (l.same r)))
      fun a => [(ty, a)] := by
    refine binary (g := fun a b => .ok (.bool (a.same b))) hT rfl rfl rfl rfl rfl fun u hu => ?_
    cases hu
    exact .bool _
  by_cases heq : op = .eq
  · subst heq
    rw [show (Emit.compareInstrs .eq .generic).forM emit = emit .genericEq from bind_pure_unit,
      show (l.same r == (CmpOp.eq == CmpOp.eq)) = l.same r by cases l.same r <;> rfl]
    exact hsame
  · have hcode : (Emit.compareInstrs op .generic).forM emit = (do emit .genericEq; emit .complement) := by
      simp only [Emit.compareInstrs, heq, if_false]
      exact congrArg (emit .genericEq >>= ·) (funext fun _ => bind_pure_unit)
    have hnot : (l.same r == (op == .eq)) = !l.same r := by
      rw [show (op == .eq) = false from beq_eq_false_iff_ne.2 heq]
      cases l.same r <;> rfl
    have hequal : (same S).Code ctx [(tr, r), (tl, l)] 1 (emit .genericEq) (pure ())
        fun _ => [(ty, .bool (l.same r))] := by
      refine Sim.shuffle rfl (.emit .genericEq rfl) rfl fun κ vs _ hvs => ?_
      obtain ⟨rfl, -⟩ := holds_iff.1 hvs
      refine ⟨[.bool (l.same r)], fun f w base hst => ?_, rfl, .cons ⟨rfl, .bool _⟩ .nil⟩
      exact MachineM.performs_binary (g := fun a b => .ok (.bool (a.same b))) rfl l r f w base hst
    rw [hcode, hnot]
    refine hequal.before (unary (g := Value.complement) hT rfl rfl rfl rfl rfl fun u _ hu => ?_)
    exact Value.portable_of_isImmediate (Value.complement_isImmediate hu)

/-- The instructions of a form of comparison do what the evaluator does by the form. -/
theorem comparedBy {op : CmpOp} {form : CompareForm} {tl tr : Ty}
    (hw : match form with
      | .method m => m.Backs 2 ty
      | _ => ty.isVoid = false) (l r : Value) :
    (same S).Code ctx [(tr, r), (tl, l)] ty.count ((Emit.compareInstrs op form).forM emit)
      (match form with
        | .method m => EvalM.callStatic m [l, r]
        | .builtin => return .bool (l.compareBy op r)
        | .generic => return .bool (l.same r == (op == .eq))) ty.leaves := by
  cases form with
  | method m =>
    rw [show (Emit.compareInstrs op (.method m)).forM emit = emit (.call m) from bind_pure_unit]
    exact backed [l, r] hT hw rfl rfl
  | builtin =>
    rw [show (Emit.compareInstrs op .builtin).forM emit = emit (.compare op) from bind_pure_unit]
    rw [Ty.count_eq_one hw, funext (Ty.leaves_of_not_isVoid hw)]
    refine binary (g := fun a b => .ok (.bool (a.compareBy op b))) hT rfl rfl rfl rfl rfl fun u hu => ?_
    cases hu
    exact .bool _
  | generic =>
    rw [Ty.count_eq_one hw, funext (Ty.leaves_of_not_isVoid hw)]
    exact genericEq hT op l r

theorem compare {op : CmpOp} {left right : Tree}
    (hops : ctx.operators = S.operators) (hl : (same S).Used ctx .value left)
    (hr : (same S).Used ctx .value right)
    (hw : match CompareForm.choose? S.operators op left.ty right.ty method with
      | some (.method m) => m.Backs 2 ty
      | _ => ty.isVoid = false) :
    (same S).Code ctx [] ty.count (Emit.compare op (.of Tree.emission left) (.of Tree.emission right) method)
      ((Manner.emitted S.operators).compare op (.of S.meaning left) (.of S.meaning right) method) ty.leaves := by
  -- both sides choose the same form
  rcases hform : CompareForm.choose? S.operators op left.ty right.ty method with _ | form <;> rw [hform] at hw
  · exact Sim.of_code (Sim.decline _) fun b => Emit.compare_of_none (by rw [hops]; exact hform) b
  · refine Sim.of_code ?_ fun b => Emit.compare_of_some (by rw [hops]; exact hform) b
    have heval : (Manner.emitted S.operators).compare op (.of S.meaning left) (.of S.meaning right) method =
        Eval.compareAs op (.of S.meaning left) (.of S.meaning right) (some form) := by
      rw [← hform]
      rfl
    rw [heval]
    exact Code.bind_two hl.value hr.value (comparedBy hT (by cases form <;> exact hw))

/-- The instruction of a form of arithmetic does what the evaluator does by the form. -/
theorem computedBy {op : ArithOp} {form : ArithForm} {tl tr : Ty}
    (hw : match form with
      | .method m => m.Backs 2 ty
      | _ => ty.isVoid = false) (l r : Value) :
    (same S).Code ctx [(tr, r), (tl, l)] ty.count (emit (Emit.arithInstr op form))
      (Eval.arithAs op tl tr l r (some form)) ty.leaves := by
  cases form with
  | method m => exact backed [l, r] hT hw rfl rfl
  | concat =>
    rw [Ty.count_eq_one hw, funext (Ty.leaves_of_not_isVoid hw)]
    refine act_one [r, l] rfl rfl rfl rfl rfl fun _ => ?_
    refine ⟨_, MachineM.performs_heap_binary (g := fun h a b => .ok (a.concat h b)) rfl l r, fun _ _ _ => rfl,
      fun w hw => hT.sound_settled hw fun u hu => ?_⟩
    cases hu
    exact .str _
  | builtin mode =>
    rw [Ty.count_eq_one hw, funext (Ty.leaves_of_not_isVoid hw)]
    refine binary (g := fun a b => a.arith op b mode) hT rfl rfl rfl rfl rfl fun u hu => ?_
    exact Value.portable_of_isImmediate (Value.arith_isImmediate hu)

theorem arith {op : ArithOp} {left right : Tree} {checked : Bool}
    (hops : ctx.operators = S.operators) (hl : (same S).Used ctx .value left)
    (hr : (same S).Used ctx .value right)
    (hw : match ArithForm.choose? S.operators op left.ty right.ty checked method with
      | some (.method m) => m.Backs 2 ty
      | _ => ty.isVoid = false) :
    (same S).Code ctx [] ty.count
      (Emit.arith op (.of Tree.emission left) (.of Tree.emission right) checked method)
      ((Manner.emitted S.operators).arith op (.of S.meaning left) (.of S.meaning right) checked method)
      ty.leaves := by
  rcases hform : ArithForm.choose? S.operators op left.ty right.ty checked method with _ | form <;> rw [hform] at hw
  · exact Sim.of_code (Sim.decline _) fun b => Emit.arith_of_none (by rw [hops]; exact hform) b
  · refine Sim.of_code ?_ fun b => Emit.arith_of_some (by rw [hops]; exact hform) b
    refine Code.bind_two hl.value hr.value fun l r => ?_
    have hcode : (same S).Code ctx [(right.ty, r), (left.ty, l)] ty.count (emit (Emit.arithInstr op form))
        (Eval.arithAs op left.ty right.ty l r (some form)) ty.leaves := computedBy hT (by cases form <;> exact hw) l r
    rw [← hform] at hcode
    exact hcode

theorem unaryOp {op : UnaryOp} {operand : Tree} {checked : Bool} (ho : (same S).Used ctx .value operand) :
    (same S).Code ctx [] 1 (Emit.unary op (.of Tree.emission operand) checked)
      (Eval.unary op (.of S.meaning operand) checked) fun a => [(ty, a)] := by
  unfold Emit.unary Eval.unary
  rcases hi : Emit.unaryInstr? op (Tree.Child.ty (.of Tree.emission operand)) checked with _ | i
  · exact Sim.decline _
  · refine Code.bind_one ho.value fun v => ?_
    unfold Emit.unaryInstr? at hi
    cases op with
    | negate =>
      simp only [Option.ite_none_right_eq_some, Option.some.injEq] at hi
      obtain rfl := hi.2
      refine unary (g := (Value.negate · (Overflow.select checked operand.ty))) hT rfl rfl rfl rfl rfl fun u _ hu => ?_
      exact Value.portable_of_isImmediate (Value.negate_isImmediate hu)
    | not =>
      simp only [Option.ite_none_right_eq_some, Option.some.injEq] at hi
      obtain rfl := hi.2
      refine unary (g := Value.complement) hT rfl rfl rfl rfl rfl fun u _ hu => ?_
      exact Value.portable_of_isImmediate (Value.complement_isImmediate hu)
    | arrayLength =>
      simp only [Option.ite_none_right_eq_some, Option.some.injEq] at hi
      obtain rfl := hi.2
      refine act_one [v] rfl rfl rfl rfl rfl fun _ => ?_
      refine ⟨_, MachineM.performs_heap_unary (g := Heap.arrayLength) rfl v, fun _ s w => ?_, fun w hw => ?_⟩
      · show (Act.heap >>= fun h => Act.settle (h.arrayLength v)) _ (s, w) = _
        rw [Act.bind_ok (Act.heap_apply _ (s, w))]
        exact Act.settle_apply _ _ (s, w)
      · exact hT.sound_settled hw fun u hu => Value.portable_of_isImmediate (Heap.arrayLength_isImmediate hu)

/-- The left value unless it is null. -/
theorem coalesce {left right : Tree} (hv : ty.isVoid = false)
    (hl : (same S).Used ctx .value left) (hr : ∀ usage, (same S).Used ctx usage right) :
    (same S).Code ctx [] 1 (Emit.coalesce ty (.of Tree.emission left) (.of Tree.emission right))
      (Eval.coalesce ty (.of S.meaning left) (.of S.meaning right)) fun a => [(ty, a)] := by
  have htested : (same S).Sim ctx 0 2 (fun κ => (same S).Holds κ [])
      (do Emitted.value (.of Tree.emission left); emit .dup) (Evaluated.value (.of S.meaning left))
      (Sim.Tested .ifNull Value.isNull fun κ a => (same S).Holds κ [(left.ty, a)]) := by
    refine Sim.after hl.value fun a => Sim.shuffle rfl (.emit .dup rfl) rfl fun κ vs _ hvs => ?_
    obtain ⟨v, rfl, rfl, hv⟩ := Holds.one hvs
    exact ⟨[v, v], MachineM.shuffles_dup v, rfl, v, [v], rfl, rfl, .cons ⟨rfl, hv⟩ .nil⟩
  have hright : ∀ a, (same S).Code ctx [(left.ty, a)] 1
      (do emit .pop; Emitted.valueAs (.of Tree.emission right) ty .value) (Evaluated.valueAs (.of S.meaning right) ty)
      fun a => [(ty, a)] := by
    intro a
    have hpop : (same S).Code ctx [(left.ty, a)] 0 (emit .pop) (pure ()) fun _ => [] := by
      refine Sim.shuffle rfl (.emit .pop rfl) rfl fun κ vs _ hvs => ?_
      obtain ⟨v, rfl, -⟩ := Holds.one hvs
      exact ⟨[], MachineM.shuffles_pop v, rfl, .nil⟩
    have hvalue : (same S).Code ctx [] Usage.value.count (Emitted.valueAs (.of Tree.emission right) ty .value)
        (Evaluated.valueAs (.of S.meaning right) ty) (Usage.value.leaves ty) :=
      Used.valueAs hr (widens _ _) (hasZero _) fun _ => hv
    exact hpop.before hvalue
  have hcode : ∀ x, (∀ a, (same S).Code ctx [(left.ty, a)] 1 x
      (if left.ty.isNullable && !ty.isNullable then Act.settle a.unwrap else pure a) fun a => [(ty, a)]) →
      (same S).Code ctx [] 1 _ (Eval.coalesce ty (.of S.meaning left) (.of S.meaning right))
        fun a => [(ty, a)] := fun x hx =>
    Sim.fork rfl htested (hx .null).emits (hright .null).emits (fun a ha => by rw [ha]; exact hx a)
      fun a ha => by rw [ha]; exact hright a
  unfold Emit.coalesce
  split
  · rename_i hc
    simpa only [bind_assoc] using hcode (emit .unwrap) fun a => by
      rw [if_pos (by simpa using hc)]
      refine unary (g := Value.unwrap) hT rfl rfl rfl rfl rfl fun u ha hu => ?_
      rwa [Value.unwrap_eq hu]
  · rename_i hc
    simpa only [bind_assoc, pure_bind] using hcode (pure ()) fun a => by
      rw [if_neg (by simpa using hc)]
      refine Sim.nothing fun κ vs hvs => ?_
      obtain ⟨v, rfl, hv⟩ := Holds.one hvs
      exact .cons hv .nil

end Same

end ExprCompiler
