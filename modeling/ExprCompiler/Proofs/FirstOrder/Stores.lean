/-
Stores of the first-order language: assignments to variables, members, elements and indexed places, member
initialisers, and exceptions that are thrown. A member initialiser stores into copies of its target.
-/
import ExprCompiler.Proofs.FirstOrder.Nodes
import ExprCompiler.Proofs.Simulation.Temporaries

namespace ExprCompiler

theorem Emit.bindings_cons (target : EmitM Unit) (b : Binding Emitted) (bs : List (Binding Emitted)) :
    Emit.bindings target (b :: bs) = (if b.member.isStatic then pure () else target) >>= fun _ => (do
      b.value.value
      Emit.storeMember b.member
      Emit.bindings target bs) := by
  have hbind : Emit.bindings target (b :: bs) = ((do
      unless b.member.isStatic do target
      b.value.value
      Emit.storeMember b.member) >>= fun _ => Emit.bindings target bs) := rfl
  rw [hbind]
  cases b.member.isStatic <;> simp only [Bool.false_eq_true, if_false, if_true, bind_assoc, pure_bind]

namespace Same

open EmitM Bridge

variable {S : Setting} {ctx : EmitContext} {ty ty' : Ty}
  {usage : Usage} {v r : Value}

theorem dup (v : Value) :
    (same S).Code ctx [(ty, v)] 2 (emit .dup) (pure ()) fun _ => [(ty, v), (ty', v)] := by
  refine Sim.shuffle rfl (.emit .dup rfl) rfl fun κ vs _ hvs => ?_
  obtain ⟨u, rfl, hu⟩ := Holds.one hvs
  exact ⟨[u, u], MachineM.shuffles_dup u, rfl, .cons hu (.cons hu .nil)⟩

/-! ## Members -/

/-- What a store into a member of a value comes to, apart from the value. -/
theorem onWorld_storeField {ec : EvalContext} (r : Value) (i : Nat) (v : Value) :
    (Act.storeField r i v >>= fun x => MonadExcept.ofExcept x.2 : EvalM Unit).OnWorld ec
      fun w => w.built ((w.heap.storeField r i v).map fun x => ((), x.2)) := by
  intro s w
  simp only [Act.storeField, bind_assoc, pure_bind]
  rw [Act.bind_ok (Act.heap_apply ec (s, w))]
  rcases w.heap.storeField r i v with (c | d) | ⟨r', h'⟩
  · exact Act.bind_error (Act.raise_apply c ec (s, w)) _
  · exact Act.bind_error (Act.defect_apply d ec (s, w)) _
  · rfl

theorem storeStatic (hT : S.Tame) (s : StaticRef) :
    (same S).Code ctx [(ty, v)] 0 (emit (.storeStatic s)) (Act.allocate fun h => ((), h.storeStatic s v))
      fun _ => [] := by
  refine act_none [v] rfl rfl rfl rfl rfl fun hv => ?_
  refine ⟨_, MachineM.performs_storeStatic s v, fun _ => Act.onWorld_allocate fun h => ((), h.storeStatic s v),
    fun _ => True, fun w hw => ?_⟩
  exact hT.sound_allocated hw trivial ((hT.heap w hw).storeStatic (hv v List.mem_cons_self) s)

theorem storeMember {m : Member} {tr tv : Ty} (hT : S.Tame) (hm : m.isStatic = false) :
    (same S).Code ctx [(tv, v), (tr, r)] 0 (Emit.storeMember m)
      (Eval.storeMember r m v >>= fun x => MonadExcept.ofExcept x.2) fun _ => [] := by
  cases m with
  | static s => cases hm
  | field cls i =>
    refine act_none [v, r] rfl rfl rfl rfl rfl fun hall => ?_
    have hv : v.Portable S.F := hall v List.mem_cons_self
    have hr : r.Portable S.F := hall r (by simp)
    refine ⟨_, MachineM.performs_storeField hr.ne_addr i v, fun _ => onWorld_storeField r i v, fun _ => True,
      fun w hw => ?_⟩
    refine hT.sound_built hw fun x hx => ⟨trivial, ?_⟩
    rcases hs : w.heap.storeField r i v with e | ⟨r', h'⟩ <;> rw [hs] at hx <;> cases hx
    exact ((hT.heap w hw).storeField hr hv hs).2
  | property p =>
    simp only [Emit.storeMember, Eval.storeMember]
    rcases hset : p.setter with _ | set
    · exact Sim.decline _
    · refine act_none [v, r] rfl rfl rfl rfl rfl fun hall => ?_
      have hv : v.Portable S.F := hall v List.mem_cons_self
      have hr : r.Portable S.F := hall r (by simp)
      refine ⟨_, (MachineM.performs_setProperty hr.ne_addr hset v).map (fun _ => ()) fun _ => rfl, fun _ s w => ?_,
        fun _ => True, fun w hw => ?_⟩
      · simp only [bind_assoc, pure_bind]
        exact Act.bind_ok (Act.hostCall_apply S.lib S.inv set r [v] _ (s, w)) _ |>.trans (Act.ofExcept_apply _ _ _)
      · obtain ⟨hworld, -, hthrown⟩ := hT.host set r [v] w hw hr (by simpa using hv)
        refine ⟨hworld, fun _ _ => trivial, fun u hu => hthrown u ?_⟩
        rcases hhost : (w.hosted S.lib S.inv set r [v]).1 with stop | a
        · rw [hhost] at hu
          cases hu
          rfl
        · rw [hhost] at hu
          cases hu

/-! ## Assignments -/

section

variable {source : EmitM Unit} {e : EvalM Value}

/-- A static cell. -/
theorem assignStatic {s : StaticRef} (hT : S.Tame)
    (hs : (same S).Code ctx [] 1 source e fun a => [(ty', a)]) :
    (same S).Code ctx [] usage.count (do
        source
        if usage = .value then emit .dup
        emit (.storeStatic s)) (do
        let v ← e
        Act.allocate fun h => ((), h.storeStatic s v)
        return v) (usage.leaves ty) := by
  refine Code.bind_one hs fun v => ?_
  have hstore : (same S).Code ctx [(ty', v)] 0 (emit (.storeStatic s))
      (Act.allocate fun h => ((), h.storeStatic s v)) fun _ => [] := storeStatic hT s
  cases usage with
  | discard => exact Sim.map hstore (fun _ => v) fun κ _ vs hvs => hvs
  | value =>
    exact (dup v).before (Sim.map (Code.above hstore [(ty, v)]) (fun _ => v) fun κ _ vs hvs => hvs)

/-- A member of a value that is no struct. -/
theorem assignMember {r : Tree} {m : Member} (hT : S.Tame) (hm : m.isStatic = false)
    (hr : (same S).Used ctx .value r) (hstruct : r.ty.isStruct = false)
    (hs : (same S).Code ctx [] 1 source e fun a => [(ty, a)]) :
    (same S).Code ctx [] usage.count (do
        Emitted.receiver (.of Tree.emission r)
        source
        Emit.storeBy (Emit.storeMember m) ty usage) (do
        let place ← Evaluated.receiver (.of S.meaning r)
        let v ← e
        place.update EvalM.access fun target => Eval.storeMember target m v
        return v) (usage.leaves ty) := by
  rw [Emitted.receiver_of_not_isStruct hstruct, Evaluated.receiver_of_not_isStruct hstruct]
  simp only [bind_assoc, pure_bind, EvalM.update_temp]
  refine Code.bind_two hr.value hs fun target v => ?_
  have hstore : (same S).Code ctx [(ty, v), (r.ty, target)] 0 (Emit.storeMember m)
      (Eval.storeMember target m v >>= fun x => MonadExcept.ofExcept x.2) fun _ => [] := storeMember hT hm
  have hcode := Code.storeBy usage ty hstore
  simp only [bind_assoc] at hcode
  exact hcode

/-- An element of an array. -/
theorem assignElement {array idx : Tree} (hT : S.Tame) (ha : (same S).Used ctx .value array)
    (hi : (same S).Used ctx .value idx) (hs : (same S).Code ctx [] 1 source e fun a => [(ty, a)]) :
    (same S).Code ctx [] usage.count (do
        Emitted.value (.of Tree.emission array)
        Emitted.value (.of Tree.emission idx)
        source
        Emit.storeBy (emit .storeElem) ty usage) (do
        let a ← Evaluated.value (.of S.meaning array)
        let i ← Evaluated.value (.of S.meaning idx)
        let v ← e
        Act.setHeap (← Act.settle ((← Act.heap).arraySet a i v))
        return v) (usage.leaves ty) := by
  refine Code.bind_two ha.value hi.value fun a i => ?_
  refine Code.bind (Code.above hs [(idx.ty, i), (array.ty, a)]) ⟨.null, rfl⟩ fun v _ => ?_
  have hstore : (same S).Code ctx [(ty, v), (idx.ty, i), (array.ty, a)] 0 (emit .storeElem)
      (do Act.setHeap (← Act.settle ((← Act.heap).arraySet a i v))) fun _ => [] := by
    refine act_none [v, i, a] rfl rfl rfl rfl rfl fun hall => ?_
    refine ⟨_, MachineM.performs_storeElem a i v, fun _ s w => ?_, fun _ => True, fun w hw => ?_⟩
    · rw [Act.bind_ok (Act.heap_apply _ (s, w))]
      rcases hset : w.heap.arraySet a i v with c | h <;> simp only [hset]
      · exact Act.bind_error (Act.raise_apply c _ (s, w)) _
      · rfl
    · refine hT.sound_built hw fun x hx => ⟨trivial, ?_⟩
      rcases hset : w.heap.arraySet a i v with c | h <;> simp only [hset] at hx <;> cases hx
      exact (hT.heap w hw).arraySet (hall v List.mem_cons_self) hset
  have hcode := Code.storeBy usage ty hstore
  simp only [bind_assoc] at hcode
  exact hcode

/-- An indexed place of a value that is no struct. -/
theorem assignIndex {receiver : Tree} {ix : Indexer} {set : HostRef} {args : List Tree} (hT : S.Tame)
    (hset : ix.setter = some set) (hr : (same S).Used ctx .value receiver)
    (hstruct : receiver.ty.isStruct = false) (ha : ∀ t ∈ args, (same S).Used ctx .value t)
    (hlen : args.length = ix.params.length) (hs : (same S).Code ctx [] 1 source e fun a => [(ty, a)]) :
    (same S).Code ctx [] usage.count (do
        Emitted.receiver (.of Tree.emission receiver)
        Emit.values (args.map (.of Tree.emission))
        source
        Emit.storeBy (emit (.setIndex ix)) ty usage) (do
        let place ← Evaluated.receiver (.of S.meaning receiver)
        let args ← Eval.values (args.map (.of S.meaning))
        let v ← e
        let _ ← place.update EvalM.access fun r => EvalM.hostOn set r (args ++ [v])
        return v) (usage.leaves ty) := by
  rw [Emitted.receiver_of_not_isStruct hstruct, Evaluated.receiver_of_not_isStruct hstruct]
  simp only [bind_assoc, pure_bind, EvalM.update_temp]
  refine Code.bind_one hr.value fun r => Code.bind_values ha fun as has => ?_
  refine Code.bind (Code.above hs _) ⟨.null, by simp; omega⟩ fun v _ => ?_
  have hstore : (same S).Code ctx
      ((ty, v) :: ((withTypes (args.map Tree.ty) as).reverse ++ [(receiver.ty, r)])) 0 (emit (.setIndex ix))
      (EvalM.hostOn set r (as ++ [v]) >>= fun x => MonadExcept.ofExcept x.2) fun _ => [] := by
    refine act_none (v :: as.reverse ++ [r]) rfl rfl (by simp) ?_ rfl fun hall => ?_
    · simp [Instr.pops, ← hlen, has]
    · have hv : v.Portable S.F := hall v List.mem_cons_self
      have hr : r.Portable S.F := hall r (by simp)
      refine ⟨_, MachineM.performs_setIndex hr.ne_addr hset (has.trans hlen) v,
        fun _ => EvalM.onWorld_hostOn set r (as ++ [v]), _, fun w hw => hT.sound_hostedOn hw hr fun u hu => ?_⟩
      rcases List.mem_append.1 hu with hu | hu
      · exact hall u (by simp [hu])
      · obtain rfl := List.mem_singleton.1 hu
        exact hv
  have hcode := Code.storeBy usage ty hstore
  simp only [bind_assoc] at hcode
  exact hcode

end

/-! ## Member initialisers -/

/-- The code of a store into a member of a value that is on the stack, if the member is of a value. -/
theorem storeInto {m : Member} {tr tv : Ty} (hT : S.Tame) :
    (same S).Code ctx ((tv, v) :: if m.isStatic then [] else [(tr, r)]) 0 (Emit.storeMember m)
      (Eval.storeMember r m v >>= fun x => MonadExcept.ofExcept x.2) fun _ => [] := by
  cases hm : m.isStatic with
  | false => exact storeMember hT hm
  | true =>
    cases m with
    | static s => exact storeStatic hT s
    | field cls i | property p => cases hm

/-- Values go into members of copies of a value. -/
theorem bindings (hT : S.Tame) : ∀ {bs : List (Binding Tree)},
    (∀ b ∈ bs, (same S).Used ctx .value b.value) →
    (same S).Code ctx [(ty, r)] 1
      (Emit.bindings (emit .dup) (bs.map (Binding.map (.of Tree.emission))))
      ((Manner.emitted S.operators).initialise r (bs.map (Binding.map (.of S.meaning)))) fun a => [(ty, a)]
  | [], _ => Sim.nothing fun κ vs hvs => hvs
  | b :: bs, hb => by
    have hvalue := (hb b List.mem_cons_self).value
    have hrest := bindings hT fun b' h => hb b' (List.mem_cons_of_mem b h)
    -- the value above what the store needs and the target that stays
    have hcode : (same S).Code ctx ((if b.member.isStatic then [] else [(ty, r)]) ++ [(ty, r)]) 1 (do
        Emitted.value (.of Tree.emission b.value)
        Emit.storeMember b.member
        Emit.bindings (emit .dup) (bs.map (Binding.map (.of Tree.emission))))
        ((Manner.emitted S.operators).initialise r ((b :: bs).map (Binding.map (.of S.meaning))))
        fun a => [(ty, a)] := by
      refine Code.bind (Code.above hvalue _) ⟨.null, by simp; omega⟩ fun v _ => ?_
      have hinto : (same S).Code ctx ((b.value.ty, v) :: if b.member.isStatic then [] else [(ty, r)]) 0
          (Emit.storeMember b.member) (Eval.storeMember r b.member v >>= fun x => MonadExcept.ofExcept x.2)
            fun _ => [] :=
        storeInto hT
      have hstored := Code.bind (Code.above hinto [(ty, r)]) ⟨(), rfl⟩ fun _ _ => hrest
      simp only [bind_assoc] at hstored
      exact hstored
    rw [List.map_cons, Emit.bindings_cons, show (Binding.map (Tree.Child.of Tree.emission) b).member =
      b.member from rfl]
    cases hm : b.member.isStatic with
    | true =>
      rw [hm] at hcode
      exact hcode
    | false =>
      rw [hm] at hcode
      exact (dup r).before hcode

/-- A member initialiser of a value that is no struct. -/
theorem memberInit {target : Tree} {bs : List (Binding Tree)} (hT : S.Tame)
    (ht : (same S).Used ctx .value target) (hstruct : target.ty.isStruct = false)
    (hvoid : target.ty.isVoid = true → ∀ b, ∃ d, Emitted.value (.of Tree.emission target) ctx b = .error (.declined d))
    (hb : ∀ b ∈ bs, (same S).Used ctx .value b.value) :
    (same S).Code ctx [] usage.count
      (Emit.memberInit (.of Tree.emission target) (bs.map (Binding.map (.of Tree.emission))) usage)
      (Evaluated.value (.of S.meaning target) >>= fun r =>
        (Manner.emitted S.operators).initialise r (bs.map (Binding.map (.of S.meaning)))) (usage.leaves ty) := by
  cases hv : target.ty.isVoid with
  | true =>
    refine Sim.of_refused (.of_declines (hvoid hv) _) fun b b' hrun => ?_
    obtain ⟨⟨⟩, b₁, hvalue, -⟩ := EmitM.bind_eq_ok hrun
    obtain ⟨d, hd⟩ := hvoid hv b
    rw [hd] at hvalue
    cases hvalue
  | false =>
    have hinit := Code.bind_one ht.value fun r => bindings (r := r) hT hb
    rw [Emit.memberInit, Tree.Child.ty_of, hstruct]
    rw [← funext (Ty.leaves_of_not_isVoid hv), ← Ty.count_eq_one hv] at hinit
    have hsettle : (same S).Code ctx [] usage.count _ _ (usage.leaves target.ty) := Code.settle hinit fun _ => hv
    rw [bind_assoc] at hsettle
    refine hsettle.mono (fun κ vs hvs => hvs) fun κ a vs hvs => ?_
    cases usage with
    | discard => exact hvs
    | value =>
      obtain ⟨v, rfl, hv⟩ := Holds.one hvs
      exact .cons hv .nil

/-! ## Exceptions -/

section

variable {n : Nat} {after : Value → List (Ty × Value)}

/-- The topmost value is thrown. -/
theorem throwTop (hT : S.Tame) :
    (same S).Code ctx [(ty, v)] n (emit .throw) (do Act.throwing (← Act.allocate v.thrown)) after := by
  refine Sim.perform rfl (.emit_to .throw rfl n fun h => by cases h) (.inr ?_) fun κ vs _ hvs => ?_
  · rintro ec s a t h
    cases h
  · obtain ⟨rfl, hv⟩ := holds_iff.1 hvs
    refine ⟨Empty, _, _, MachineM.performs_throw v, ?_⟩
    rintro handling vars w wE ⟨rfl, hw⟩
    have hsound : Sound S.F S.I (fun _ : Value => True) (w.throws v) := hT.sound_throws hw (hv _ List.mem_cons_self)
    refine .inr ⟨rfl, (), _, _, le_rfl, rfl, rfl, rfl, hsound.world, ?_⟩
    rintro u ⟨⟩
    exact hsound.thrown _ rfl

/-- The exception being handled is thrown again: it is not null, so that throwing it changes nothing. -/
theorem rethrow {hidden : Nat} {rest : List Nat} (hc : ctx.catchLocals = hidden :: rest) :
    (same S).Code ctx [] n ([.loadLocal hidden, .throw].forM emit) (Eval.throwing none) after := by
  refine Sim.straight ?_ (by simp) (.inr ?_) ?_
  · exact Emits.bind (.emit (.loadLocal hidden) rfl) fun _ =>
      Emits.bind (.emit_to .throw rfl n fun h => by cases h) fun _ => .of_pure n ()
  · rintro ec s a t h
    rw [Eval.throwing, Act.bind_ok (Act.read_apply ec s)] at h
    rcases hh : ec.handling with _ | ⟨exn, exns⟩ <;> simp only [hh] at h
    · rw [Act.misuse, Act.raise_apply] at h
      cases h
    · cases h
  · intro b u κ handling f vars w wE vs base hfit hready hstack _ _
    obtain ⟨rfl, hw⟩ := hready.world
    have hhandling := hready.corresponds.handling
    rw [hc] at hhandling
    obtain ⟨exn, exns, ⟨hlocal, hexn, hne⟩, -, rfl⟩ := List.forall₂_cons_left_iff.1 hhandling
    have hthrows : w.throws (α := Empty) exn = (.error (.thrown exn), w) := by
      unfold World.throws Value.thrown
      split
      · exact absurd rfl hne
      · rfl
    have heffect : CodeUnit.effects [.loadLocal hidden, .throw] ⟨S.lib, S.inv, none⟩ (f, w) =
      (.error (.thrown exn), f, w) := by
      rw [CodeUnit.effects_cons, Act.bind_ok (MachineM.effect_load (.inr ⟨hidden, rfl, rfl⟩) hlocal),
        CodeUnit.effects_cons]
      have hperform : MachineM.Performs ⟨S.lib, S.inv, none⟩ .throw [exn] (fun w => w.throws exn) fun _ : Empty => [] :=
        MachineM.performs_throw exn
      have hthrow := hperform { f with stack := exn :: f.stack } w f.stack rfl
      simp only [hthrows] at hthrow
      exact Act.bind_error hthrow _
    refine .inr ⟨(), f, w, .thrown exn, heffect, ⟨le_rfl, hready.corresponds, .refl _ f⟩, ?_, List.suffix_rfl, rfl, rfl,
      hw, ?_⟩
    · rw [hstack]
      exact List.suffix_append vs base
    · rintro v ⟨⟩
      exact ⟨hexn, hne⟩

theorem throwing {operand : Option Tree} (hT : S.Tame)
    (ho : ∀ t ∈ operand, (same S).Used ctx .value t) :
    (same S).Code ctx [] n (Emit.throwing (operand.map (.of Tree.emission)))
      (Eval.throwing (operand.map (.of S.meaning))) after := by
  cases operand with
  | some t => exact Code.bind_one (ho t rfl).value fun v => throwTop hT
  | none =>
    rcases hc : ctx.catchLocals with _ | ⟨hidden, rest⟩
    · refine (Sim.declined .rethrowOutside fun _ => emit .throw).of_code fun b => ?_
      rw [Option.map_none, Emit.throwing, EmitM.bind_apply, EmitM.read_apply]
      simp only [hc]
    · refine (rethrow hc).of_code fun b => ?_
      rw [Option.map_none, Emit.throwing, EmitM.bind_apply, EmitM.read_apply]
      simp only [hc]
      exact congrFun₂ (congrArg (emit (.loadLocal hidden) >>= fun _ => ·) bind_pure_unit.symm) ctx b

end

end Same

end ExprCompiler
