/-
Loads and stores where no address is in play. Variables, the heap and the values that are put together hold none, and
what is read at a place or written to it keeps to that. The instructions that load and store elements, fields and
variables come to what the evaluator's operations come to, through an address or through a value; the value that was
stored is left on the stack.
-/
import ExprCompiler.Proofs.FirstOrder.Portable
import ExprCompiler.Proofs.Places.Code
import ExprCompiler.Proofs.Simulation.Instructions
import ExprCompiler.Proofs.Simulation.Temporaries

namespace ExprCompiler

/-- No variable, no part of the heap and no value in play holds an address, and the functions in them are among `F`. -/
def Knowledge.portable (F : Callable → Prop) : Knowledge where
  state t := (∀ x ∈ t.1, x.2.Portable F) ∧ t.2.heap.Portable F
  value v := v.Portable F
  immediate := Value.portable_of_isImmediate
  ne_addr h := h.ne_addr

namespace Sides

variable {S : Sides} {F : Callable → Prop} {K : Knowledge} {W : Set Nat} {l m : Nat} {s : Frame × World}
  {t t' : Activation × World} {p : Param} {v : Value} {b : Place EvalVar} {i : Nat} {α : Type}

/-! ## Places -/

/-- What is read at a place holds no address. -/
theorem portable_read (hself : S.eval.self = none) (hk : (Knowledge.portable F).state t)
    (hb : (Knowledge.portable F).place b) (h : b.read EvalM.access S.eval t = (.ok v, t')) : t' = t ∧ v.Portable F := by
  induction b generalizing v t' with
  | root y =>
    cases y with
    | own i =>
      cases h
      refine ⟨rfl, ?_⟩
      unfold EvalM.valueAt
      rcases hi : t.1[i]? with _ | x
      · exact .null
      · exact hk.1 x (Array.mem_of_getElem? hi)
    | captured i =>
      have hnone : EvalM.capturedBy t.2 S.eval.self = #[] := by
        rw [hself]
        rfl
      have h : (Except.ok (EvalM.valueAt (EvalM.capturedBy t.2 S.eval.self) i), t) = (.ok v, t') := h
      rw [hnone] at h
      cases h
      exact ⟨rfl, .null⟩
    | temp u =>
      cases h
      exact ⟨rfl, hb⟩
  | element a i =>
    rw [Place.read, Act.bind_ok (Act.heap_apply _ _)] at h
    rcases hi : (t.2.heap.items a)[i]? with _ | u <;> rw [hi] at h
    · cases (Act.raise_apply (.indexOutOfRange i) S.eval t).symm.trans h
    · cases h
      exact ⟨rfl, hk.2.items a _ (Array.mem_of_getElem? hi)⟩
  | objectField o i =>
    rw [Place.read, Act.bind_ok (Act.heap_apply _ _)] at h
    obtain ⟨rfl, hload⟩ := state_of_attempt h
    exact ⟨rfl, hk.2.loadField (.object o) hload⟩
  | field b i ih =>
    obtain ⟨holder, t₁, hread, hrest⟩ := Act.bind_eq_ok h
    obtain ⟨rfl, hholder⟩ := ih hb hread
    rw [Act.bind_ok (Act.heap_apply _ _)] at hrest
    obtain ⟨rfl, hload⟩ := state_of_attempt hrest
    exact ⟨rfl, hk.2.loadField hholder hload⟩

theorem portable_setValue {vars : Activation} (h : ∀ x ∈ vars, x.2.Portable F) (hv : v.Portable F) (i : Nat) :
    ∀ x ∈ EvalM.setValue vars i v, x.2.Portable F := by
  intro x hx
  obtain ⟨j, hj⟩ := Array.getElem?_of_mem hx
  rw [EvalM.setValue, Array.getElem?_modify] at hj
  split at hj
  · obtain ⟨x', -, rfl⟩ := Option.map_eq_some_iff.1 hj
    exact hv
  · exact h x (Array.mem_of_getElem? hj)

/-- Without a running lambda, a store into a variable keeps addresses out. -/
theorem portable_hold (hself : S.eval.self = none) (hk : (Knowledge.portable F).state t) (hv : v.Portable F)
    (y : EvalVar) : (Knowledge.portable F).state (S.hold t y v) := by
  unfold hold
  rw [hself]
  cases y with
  | own i => exact ⟨portable_setValue hk.1 hv i, hk.2⟩
  | captured i | temp u => exact hk

/-- A computation comes to the same on both sides and leaves nothing. -/
theorem Ends.done {base : List Value} {c : MachineM Unit} {e : EvalM Unit} (hA : S.Agree s t)
    (hm : S.Meets W ({ s.1 with stack := base }, s.2) t (c S.machine ({ s.1 with stack := base }, s.2)) (e S.eval t))
    (hW : W ⊆ Set.Ico l m) (hok : ∀ t', e S.eval t = (.ok (), t') → K.state t') :
    S.Ends K l m base (fun _ => []) s t (c S.machine ({ s.1 with stack := base }, s.2)) (e S.eval t) := by
  obtain ⟨r, s', t', hc, he, hto, hstack⟩ := hm.split hA
  rw [hc, he]
  cases r with
  | error stop => exact ⟨s', rfl, hto.mono hW⟩
  | ok a => exact ⟨s', [], rfl, hto.mono hW, hok t' he, hstack, .nil⟩

theorem Meets.storeField (hA : S.Agree s t) (r : Value) (i : Nat) (v : Value) :
    S.Meets W s t ((Act.storeField r i v : MachineM _) S.machine s) ((Act.storeField r i v : EvalM _) S.eval t) := by
  refine .heap hA (.bind (.attempt hA _) subset_rfl fun x s₁ t₁ _ _ h₁ => ?_)
  exact .bind (.allocate h₁.agree _) subset_rfl fun _ s₂ t₂ _ _ h₂ => .of_pure h₂.agree _

end Sides

/-! ## Code -/

namespace EmitM

variable {ctx : EmitContext} {b b' : Builder}

/-- A variable is stored into by one instruction. -/
theorem writes_storeVar {x : FrameVar} (h : storeVar x ctx b = .ok ((), b')) : ∃ i, b.Writes b' [i] ∧ i ≠ .ret ∧
    MachineM.effect i = (do MachineM.access.write x (← MachineM.pop)) := by
  cases x with
  | arg i | localVar i => exact ⟨_, writes_emit h, by simp, rfl⟩
  | closure slot =>
    obtain ⟨layout, b₁, hlayout, hemit⟩ := bind_eq_ok h
    have hsame : b₁ = b := by
      simp only [EmitM.layout, bind_apply, read_apply] at hlayout
      rcases hl : ctx.layout with _ | l <;> rw [hl] at hlayout <;> cases hlayout
      rfl
    subst hsame
    exact ⟨_, writes_emit hemit, by simp, rfl⟩

/-- The code of a store that leaves what was stored. -/
theorem lays_storeBy {i : Instr} {ty : Ty} (hret : i ≠ .ret)
    (h : Emit.storeBy (emit i) ty .value ctx b = .ok ((), b')) : b'.locals.size = b.locals.size + 1 ∧
      b.Lays b' [.dup, .storeLocal (b.newLocal ty).1, i, .loadLocal (b.newLocal ty).1] := by
  obtain ⟨temp, b₁, hkeep, h⟩ := bind_eq_ok h
  obtain ⟨rfl, hcopy⟩ := Bridge.keep_inv hkeep
  obtain ⟨⟨⟩, b₂, hstore, hrestore⟩ := bind_eq_ok h
  have hload : emit (.loadLocal (b.newLocal ty).1) ctx b₂ = .ok ((), b') := hrestore
  have hcode := (hcopy.append (writes_emit hstore)).append (writes_emit hload)
  refine ⟨by rw [hcode.locals]; simp [Builder.newLocal], (Builder.Lays.newLocal b ty).append (.of_writes hcode ?_)⟩
  simpa using hret

/-- The code that copies a value into a new local and gives the address of that. -/
theorem lays_temp {ty : Ty}
    (h : (do
      let temp ← newLocal ty
      emit (.storeLocal temp)
      emit (.loadLocalAddr temp)) ctx b = .ok ((), b')) : b'.locals.size = b.locals.size + 1 ∧
      b.Lays b' [.storeLocal (b.newLocal ty).1, .loadLocalAddr (b.newLocal ty).1] := by
  obtain ⟨temp, b₁, hnew, h⟩ := bind_eq_ok h
  cases hnew
  obtain ⟨⟨⟩, b₂, hstore, hload⟩ := bind_eq_ok h
  have hcode := (writes_emit hstore).append (writes_emit hload)
  exact ⟨by rw [hcode.locals]; simp, (Builder.Lays.newLocal b ty).append (.of_writes hcode (by simp))⟩

end EmitM

namespace Sides

variable {S : Sides} {F : Callable → Prop} {K : Knowledge} {p : Param} {v : Value} {n : Nat} {base : List Value}
  {s : Frame × World}

theorem effect_storeLocal (hst : s.1.stack = v :: base) (hn : n < s.1.locals.size) :
    MachineM.effect (.storeLocal n) S.machine s =
      (.ok (), S.store ({ s.1 with stack := base }, s.2) (.localVar n) v) := by
  rw [MachineM.effect, Act.bind_ok (MachineM.pop_apply hst)]
  refine write_stored (x := .localVar n) ?_ v
  simp [stored?, hn]

theorem effect_dup (hst : s.1.stack = v :: base) :
    MachineM.effect .dup S.machine s = (.ok (), { s.1 with stack := v :: v :: base }, s.2) := by
  have htop : MachineM.top S.machine s = (.ok v, s) := by
    rw [MachineM.top, Act.bind_ok (Act.own_apply _ _), hst]
    rfl
  rw [MachineM.effect, Act.bind_ok htop, MachineM.push_apply, hst]

/-- The number of the next local. -/
theorem Stage.newLocal {b b' : Builder} (h : S.Stage b b' s) (ty : Ty) (hb : b'.locals.size = b.locals.size + 1) :
    (b.newLocal ty).1 = b.locals.size ∧ b.locals.size < s.1.locals.size ∧ S.Free (.localVar b.locals.size) := by
  obtain ⟨hfew, hroom, hfree⟩ := h b.locals.size le_rfl (by omega)
  exact ⟨Nat.mod_eq_of_lt hfew, hroom, hfree⟩

theorem effects_copy (hst : s.1.stack = v :: base) (hn : n < s.1.locals.size) :
    CodeUnit.effects [.dup, .storeLocal n] S.machine s =
      (.ok (), S.store ({ s.1 with stack := v :: base }, s.2) (.localVar n) v) := by
  rw [CodeUnit.effects_cons, Act.bind_ok (effect_dup hst), CodeUnit.effects_one]
  exact effect_storeLocal rfl hn

namespace Codes

/-- A store that leaves what was stored: a copy waits in a new local, which the store does not change. -/
theorem storeBy {i : Instr} {item : Item} {e : EvalM Unit} (hret : i ≠ .ret)
    (h : S.Does K [.value v, item] i e fun _ => []) (ty : Ty) :
    S.Codes K [.value v, item] (Emit.storeBy (EmitM.emit i) ty .value) (do e; return v) fun a => [.value a] where
  lays hx := ⟨_, (EmitM.lays_storeBy hret hx).2⟩
  runs {b b' is} hx hlays l s t vs base hle hA hk hstage hst hbefore := by
    obtain ⟨hsize, hlays'⟩ := EmitM.lays_storeBy hret hx
    obtain rfl := hlays.unique hlays'
    obtain ⟨hlocal, hroom, hfree⟩ := hstage.newLocal ty hsize
    obtain ⟨w, u, rfl, ⟨rfl, hv⟩, hu⟩ := holds_two hbefore
    rw [hlocal, hsize]
    have hwide : Set.Ico l b.locals.size ⊆ Set.Ico l (b.locals.size + 1) := Set.Ico_subset_Ico_right (by omega)
    have hnew : Set.Ico b.locals.size (b.locals.size + 1) ⊆ Set.Ico l (b.locals.size + 1) := Set.Ico_subset_Ico_left hle
    obtain ⟨s₁, hs₁⟩ : ∃ s₁, s₁ = S.store ({ s.1 with stack := w :: u :: base }, s.2) (.localVar b.locals.size) w :=
      ⟨_, rfl⟩
    have hcopy : S.Later (Set.Ico b.locals.size (b.locals.size + 1)) s t s₁ t :=
      hs₁ ▸ (hA.stack _).trans ((hA.stack (W := ∅) _).agree.writeLocal hfree (by simp) w)
    have hstored : S.stored? s₁ (.localVar b.locals.size) = some w :=
      hs₁ ▸ stored?_store_self (by simp [stored?, hroom])
    have hstack : s₁.1.stack = [w, u] ++ base := by rw [hs₁, stack_store]; rfl
    have hrun : CodeUnit.effects [.dup, .storeLocal b.locals.size] S.machine s = (.ok (), s₁) :=
      (effects_copy hst hroom).trans (by rw [hs₁]; rfl)
    have hends := h hcopy.agree hk hstack (hbefore.later hcopy fun i hi _ => hi.1)
    rw [show [Instr.dup, .storeLocal b.locals.size, i, .loadLocal b.locals.size] =
      [.dup, .storeLocal b.locals.size] ++ [i, .loadLocal b.locals.size] from rfl, CodeUnit.effects_append,
      Act.bind_ok hrun, CodeUnit.effects_cons, CodeUnit.effects_one]
    rcases he : e S.eval t with ⟨stop | ⟨⟩, t'⟩ <;> rw [he] at hends
    · obtain ⟨s', hr, hl⟩ := hends
      rw [Act.bind_error he, Act.bind_error hr]
      exact ⟨s', rfl, (hcopy.mono hnew).trans (hl.mono hwide)⟩
    · obtain ⟨s', us, hr, hl, hk', hst', hnil⟩ := hends
      obtain rfl := holds_nil hnil
      have hkept : s'.1.locals[b.locals.size]? = some w := (hl.kept _ hfree (by rintro i ⟨⟩; simp)).trans hstored
      have hentry : MachineM.effect (.loadLocal b.locals.size) S.machine s' =
          (.ok (), { s'.1 with stack := w :: s'.1.stack }, s'.2) :=
        Act.bind_ok (read_stored (x := .localVar b.locals.size) hkept) _
      rw [Act.bind_ok he, Act.bind_ok hr, hentry]
      exact ⟨_, [w], rfl, ((hcopy.mono hnew).trans (hl.mono hwide)).trans (hl.agree.stack _), hk', by simp [hst'],
        .cons ⟨rfl, hv⟩ .nil⟩

/-- A value without a home is copied into a new local. -/
theorem temp (v : Value) (ty : Ty) :
    S.Codes K [.value v] (do
      let temp ← EmitM.newLocal ty
      EmitM.emit (.storeLocal temp)
      EmitM.emit (.loadLocalAddr temp)) (pure (.root (.temp v))) fun b => [.place b] where
  lays hx := ⟨_, (EmitM.lays_temp hx).2⟩
  runs {b b' is} hx hlays l s t vs base hle hA hk hstage hst hbefore := by
    obtain ⟨hsize, hlays'⟩ := EmitM.lays_temp hx
    obtain rfl := hlays.unique hlays'
    obtain ⟨hlocal, hroom, hfree⟩ := hstage.newLocal ty hsize
    obtain ⟨w, rfl, rfl, hv⟩ := holds_one hbefore
    rw [hlocal, hsize]
    obtain ⟨s₁, hs₁⟩ : ∃ s₁, s₁ = S.store ({ s.1 with stack := base }, s.2) (.localVar b.locals.size) w := ⟨_, rfl⟩
    have hcopy : S.Later (Set.Ico l (b.locals.size + 1)) s t s₁ t :=
      hs₁ ▸ (hA.stack _).trans ((hA.stack (W := ∅) _).agree.writeLocal hfree (Set.mem_Ico.2 ⟨hle, by omega⟩) w)
    have hstored : s₁.1.locals[b.locals.size]? = some w :=
      show S.stored? s₁ (.localVar b.locals.size) = some w from hs₁ ▸ stored?_store_self (by simp [stored?, hroom])
    have hstack : s₁.1.stack = base := by rw [hs₁, stack_store]
    have hrun : MachineM.effect (.storeLocal b.locals.size) S.machine s = (.ok (), s₁) :=
      (effect_storeLocal hst hroom).trans (by rw [hs₁]; rfl)
    rw [CodeUnit.effects_cons, Act.bind_ok hrun, CodeUnit.effects_one]
    exact ⟨_, [.addr (.root (.localVar b.locals.size))], MachineM.push_apply _ _, hcopy.trans (hcopy.agree.stack _), hk,
      by simp [hstack], .cons ⟨_, rfl, .temp hle (by omega) hfree hstored, hv⟩ .nil⟩

/-- A token gets the value of a computation, which is left. -/
theorem assignVar {source : EmitM Unit} {e : EvalM Value} (hself : S.eval.self = none)
    (hp : ∀ {x}, S.ctx.KeptIn p x → p ∈ S.tokens) (h : S.Codes (.portable F) [] source e fun a => [.value a]) :
    S.Codes (.portable F) [] (do
      let var ← EmitM.resolve p
      source
      EmitM.emit .dup
      EmitM.storeVar var) (do
      let var ← EvalM.lookup p
      let v ← e
      EvalM.access.write var v
      return v) fun a => [.value a] where
  lays hx := by
    obtain ⟨x, b₁, hresolve, hx⟩ := EmitM.bind_eq_ok hx
    obtain ⟨⟨⟩, b₂, hsource, hx⟩ := EmitM.bind_eq_ok hx
    obtain ⟨⟨⟩, b₃, hdup, hstore⟩ := EmitM.bind_eq_ok hx
    obtain ⟨rfl, -⟩ := EmitM.keptIn_of_resolve hresolve
    obtain ⟨is, his⟩ := h.lays hsource
    obtain ⟨i, hwrites, hret, -⟩ := EmitM.writes_storeVar hstore
    exact ⟨_, his.append (.of_writes ((EmitM.writes_emit hdup).append hwrites) (by simpa using hret))⟩
  runs {b b' is} hx hlays l s t vs base hle hA hk hstage hst hbefore := by
    obtain ⟨x, b₁, hresolve, hx⟩ := EmitM.bind_eq_ok hx
    obtain ⟨⟨⟩, b₂, hsource, hx⟩ := EmitM.bind_eq_ok hx
    obtain ⟨⟨⟩, b₃, hdup, hstore⟩ := EmitM.bind_eq_ok hx
    obtain ⟨rfl, hkept⟩ := EmitM.keptIn_of_resolve hresolve
    obtain ⟨is₁, his⟩ := h.lays hsource
    obtain ⟨i, hwrites, hret, heffect⟩ := EmitM.writes_storeVar hstore
    have hrest := (EmitM.writes_emit hdup).append hwrites
    obtain rfl := hlays.unique (his.append (.of_writes hrest (by simpa using hret)))
    obtain ⟨x', y, u, hkept', hy, hsx, hty⟩ := hA.vars p (hp hkept)
    obtain rfl := hkept.unique hkept'
    have hstage₂ : S.Stage b₁ b₂ s := fun i hi hlt => hstage i hi (by rw [hrest.locals]; exact hlt)
    have hends := h.runs hsource his hle hA hk hstage₂ hst hbefore
    rw [hrest.locals]
    rw [Act.bind_ok hy, CodeUnit.effects_append]
    rcases he : e S.eval t with ⟨stop | a, t₁⟩ <;> rw [he] at hends
    · obtain ⟨s₁, hr, hl⟩ := hends
      rw [Act.bind_error he, Act.bind_error hr]
      exact ⟨s₁, rfl, hl⟩
    · obtain ⟨s₁, us, hr, hl, hk₁, hst₁, hh⟩ := hends
      obtain ⟨w, rfl, rfl, hv⟩ := holds_one hh
      -- the token is where it was before the source was computed
      obtain ⟨x', y', u', hkept', hy', hsx', hty'⟩ := hl.agree.vars p (hp hkept)
      obtain rfl := hkept.unique hkept'
      obtain rfl := (hl.finds p y hy).unique hy'
      obtain ⟨s₂, hs₂⟩ : ∃ s₂, s₂ = ({ s₁.1 with stack := w :: base }, s₁.2) := ⟨_, rfl⟩
      have hcopy : S.Later (Set.Ico l b₂.locals.size) s₁ t₁ s₂ t₁ := hs₂ ▸ hl.agree.stack _
      have hsome : (S.stored? s₂ x).isSome := by
        have hsame : S.stored? s₂ x = S.stored? s₁ x := by
          rw [hs₂]
          cases x <;> rfl
        rw [hsame, hsx']
        rfl
      have hstored : CodeUnit.effects [.dup, i] S.machine s₁ = (.ok (), S.store s₂ x w) := by
        rw [CodeUnit.effects_cons, Act.bind_ok (effect_dup hst₁), CodeUnit.effects_one, heffect,
          Act.bind_ok (MachineM.pop_apply rfl)]
        rw [← write_stored hsome w, hs₂]
        rfl
      rw [Act.bind_ok he, Act.bind_ok hr, show [Instr.dup] ++ [i] = [.dup, i] from rfl, hstored,
        Act.bind_ok (write_held y w)]
      refine ⟨_, [w], rfl, (hl.trans hcopy).trans (hcopy.agree.write (hp hkept) hkept hy' w),
        portable_hold hself hk₁ hv y, ?_, .cons ⟨rfl, hv⟩ .nil⟩
      rw [stack_store, hs₂]
      rfl

/-- A static field gets the value on the stack, which is left. -/
theorem assignStatic (r : StaticRef) (v : Value) :
    S.Codes (.portable F) [.value v] (do EmitM.emit .dup; EmitM.emit (.storeStatic r))
      (do Act.allocate fun h => ((), h.storeStatic r v); return v) fun a => [.value a] := by
  have hdup : S.Codes (.portable F) [.value v] (EmitM.emit .dup) (pure ()) fun _ => [.value v, .value v] := by
    refine .instr (by simp) fun {l m s t vs base} hA hk hst hbefore => ?_
    obtain ⟨w, rfl, rfl, hv⟩ := holds_one hbefore
    rw [effect_dup hst]
    exact ⟨_, [w, w], rfl, hA.stack _, hk, rfl, .cons ⟨rfl, hv⟩ (.cons ⟨rfl, hv⟩ .nil)⟩
  have hstore : S.Codes (.portable F) [.value v, .value v] (EmitM.emit (.storeStatic r))
      (do Act.allocate fun h => ((), h.storeStatic r v); return v) fun a => [.value a] := by
    refine .instr (by simp) fun {l m s t vs base} hA hk hst hbefore => ?_
    obtain ⟨w, w', rfl, ⟨rfl, hv⟩, rfl, -⟩ := holds_two hbefore
    have hheap : s.2.heap = t.2.heap := hA.heap
    rw [MachineM.effect, Act.bind_ok (MachineM.pop_apply hst), Act.allocate_apply,
      Act.bind_ok (Act.allocate_apply _ _ _), Act.pure_apply]
    simp only [hheap]
    exact ⟨_, [w'], rfl, (hA.stack _).trans ((hA.stack (W := ∅) _).agree.heaps _), ⟨hk.1, hk.2.storeStatic hv r⟩, rfl,
      .cons ⟨rfl, hv⟩ .nil⟩
  exact (hdup.bind fun _ => hstore).of_eval fun t => by rw [pure_bind]

end Codes

end Sides

end ExprCompiler
