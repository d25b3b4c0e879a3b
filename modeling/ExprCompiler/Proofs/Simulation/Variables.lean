/-
Variables of the machine and of the evaluator. A token denotes its innermost variable on both sides:
the frame variable that the generator resolves it to is at the position where the evaluator finds the
token. Loads and stores of such variables agree, and so does code in the scope of new ones.
-/
import ExprCompiler.Proofs.Simulation.Values

namespace ExprCompiler

/-! ## The innermost variable of a token -/

/-- The innermost variable of a token in a list of variables, outermost first. -/
structure Innermost {γ : Type} (xs : List (Param × γ)) (p : Param) (c : γ) (i : Nat) : Prop where
  here : xs[i]? = some (p, c)
  last : ∀ j, i < j → ∀ q d, xs[j]? = some (q, d) → q ≠ p

namespace Innermost

variable {γ δ : Type} {xs ys : List (Param × γ)} {p : Param} {c : γ} {i : Nat}

theorem append_right (h : Innermost ys p c i) : Innermost (xs ++ ys) p c (xs.length + i) where
  here := by
    rw [List.getElem?_append_right (by omega)]
    simpa using h.here
  last j hj q d hq := by
    rw [List.getElem?_append_right (by omega)] at hq
    exact h.last (j - xs.length) (by omega) q d hq

theorem append_left (h : Innermost xs p c i) (hys : ∀ y ∈ ys, y.1 ≠ p) : Innermost (xs ++ ys) p c i where
  here := by
    rw [List.getElem?_append_left (List.getElem?_eq_some_iff.1 h.here).1]
    exact h.here
  last j hj q d hq := by
    by_cases hlt : j < xs.length
    · rw [List.getElem?_append_left hlt] at hq
      exact h.last j hj q d hq
    · rw [List.getElem?_append_right (by omega)] at hq
      exact hys _ (List.mem_of_getElem? hq)

theorem map {f : γ → δ} (h : Innermost xs p c i) : Innermost (xs.map fun x => (x.1, f x.2)) p (f c) i where
  here := by
    rw [List.getElem?_map, h.here]
    rfl
  last j hj q d hq := by
    rw [List.getElem?_map] at hq
    obtain ⟨x, hx, he⟩ := Option.map_eq_some_iff.1 hq
    cases he
    exact h.last j hj x.1 x.2 hx

theorem of_find? {x : Param × γ} (h : (xs.reverse.find? fun v => v.1 == p) = some x) :
    ∃ i, Innermost xs p x.2 i := by
  obtain ⟨hx, as, bs, hsplit, has⟩ := List.find?_eq_some_iff_append.1 h
  have hxp : x.1 = p := by simpa using hx
  have hxs : xs = bs.reverse ++ x :: as.reverse := by
    rw [← List.reverse_reverse xs, hsplit]
    simp
  subst hxp
  refine ⟨bs.length, ?_, fun j hj q d hq => ?_⟩
  · rw [hxs, List.getElem?_append_right (by simp)]
    simp
  · rw [hxs, List.getElem?_append_right (by simp; omega)] at hq
    obtain ⟨k, hk⟩ : ∃ k, j - bs.reverse.length = k + 1 := ⟨j - bs.length - 1, by simp; omega⟩
    rw [hk, List.getElem?_cons_succ] at hq
    have hmem : (q, d) ∈ as := by simpa using List.mem_of_getElem? hq
    simpa using has _ hmem

/-- Variables that stand for each other have the same innermost ones. -/
theorem forall₂ {ys : List (Param × δ)} {R : Param × γ → Param × δ → Prop} (h : Innermost xs p c i)
    (hxy : List.Forall₂ R xs ys) (hR : ∀ x y, R x y → y.1 = x.1) : ∃ d, Innermost ys p d i ∧ R (p, c) (p, d) := by
  have hlen := hxy.length_eq
  have hget : ∀ (j : Nat) x y, xs[j]? = some x → ys[j]? = some y → R x y := by
    intro j x y hx hy
    obtain ⟨hj, rfl⟩ := List.getElem?_eq_some_iff.1 hx
    obtain ⟨hj', rfl⟩ := List.getElem?_eq_some_iff.1 hy
    exact hxy.get hj hj'
  have hi := (List.getElem?_eq_some_iff.1 h.here).1
  obtain ⟨⟨q, d⟩, hq⟩ : ∃ y, ys[i]? = some y := ⟨_, List.getElem?_eq_getElem (by omega)⟩
  have hr := hget i _ _ h.here hq
  obtain rfl : q = p := hR _ _ hr
  refine ⟨d, ⟨hq, fun j hj q' d' hq' => ?_⟩, hr⟩
  have hj' := (List.getElem?_eq_some_iff.1 hq').1
  have hx : xs[j]? = some xs[j] := List.getElem?_eq_getElem (by omega)
  rw [show q' = xs[j].1 from hR _ _ (hget j _ _ hx hq')]
  exact h.last j hj _ _ hx

end Innermost

namespace EvalM

theorem find?_range_reverse {P : Nat → Bool} {n i : Nat} (hi : i < n) (hP : P i = true)
    (hlast : ∀ j, i < j → j < n → P j = false) : (List.range n).reverse.find? P = some i := by
  induction n with
  | zero => omega
  | succ n ih =>
    rw [List.range_succ, List.reverse_append, List.reverse_singleton, List.singleton_append, List.find?_cons]
    by_cases hin : i = n
    · subst hin
      rw [hP]
    · rw [hlast n (by omega) (by omega)]
      exact ih (by omega) fun j hj hjn => hlast j hj (by omega)

theorem position?_of_innermost {vars : Activation} {p : Param} {a : Value} {i : Nat}
    (h : Innermost vars.toList p a i) : position? vars p = some i := by
  have hi : vars[i]? = some (p, a) := by
    rw [← Array.getElem?_toList]
    exact h.here
  refine find?_range_reverse (Array.getElem?_eq_some_iff.1 hi).1 (by simp [hi]) fun j hj hjn => ?_
  have hjs : vars[j]? = some vars[j] := Array.getElem?_eq_getElem hjn
  have hne := h.last j hj vars[j].1 vars[j].2 (by rw [Array.getElem?_toList]; exact hjs)
  rw [hjs]
  simpa using hne

theorem position?_eq_none {vars : Activation} {p : Param} (h : ∀ x ∈ vars.toList, x.1 ≠ p) :
    position? vars p = none := by
  refine List.find?_eq_none.2 fun i hi => ?_
  rw [List.mem_reverse, List.mem_range] at hi
  have hne := h vars[i] (by simp)
  simp [hi, hne]

theorem map_fst_setValue (vars : Activation) (i : Nat) (v : Value) :
    (setValue vars i v).map Prod.fst = vars.map Prod.fst := by
  refine Array.ext (by simp [setValue]) fun j hj hj' => ?_
  simp only [setValue, Array.getElem_map, Array.getElem_modify]
  split <;> rfl

end EvalM

/-- A token is kept in an item of the closure. -/
structure EmitContext.Captures (ctx : EmitContext) (p : Param) (slot : Nat) : Prop where
  outside : ∀ s ∈ ctx.slots, s.1 ≠ p
  item : ∃ i l, ctx.capture.paramIndex? p = some i ∧ ctx.layout = some l ∧ l.slot .param i = .ok slot

namespace EmitM

variable {ctx : EmitContext} {b b' : Builder} {p : Param} {x : FrameVar}

theorem localOf?_eq (p : Param) : ∀ scopes : List (List (Param × Nat)),
    localOf? scopes p = (scopes.reverse.flatten.reverse.find? fun v => v.1 == p).map Prod.snd
  | [] => rfl
  | scope :: scopes => by
    rw [localOf?, List.findSome?_cons, List.reverse_cons, List.flatten_append, List.reverse_append, List.find?_append]
    have ih := localOf?_eq p scopes
    rw [localOf?] at ih
    rcases hs : scope.reverse.find? fun v => v.1 == p with _ | v
    · simp [hs, ih]
    · simp [hs]

/-- Where a token is kept: in the innermost variable of the unit that has the token, or else in an item
of the closure. -/
theorem resolve_inv {b₀ : Builder} (h : resolve p ctx b = .ok (x, b')) (hfit : ctx.Fits b₀) :
    b' = b ∧ ((∃ i, Innermost ctx.slots p x i) ∨ ∃ slot, x = .closure slot ∧ ctx.Captures p slot) := by
  rw [resolve, bind_apply, read_apply] at h
  simp only [localOf?_eq] at h
  rcases hlocal : ctx.scopes.reverse.flatten.reverse.find? fun v => v.1 == p with _ | v <;> rw [hlocal] at h
  · -- no scope declares the token
    have hscopes : ∀ v ∈ ctx.scopes.reverse.flatten, v.1 ≠ p := by
      intro v hv
      have := List.find?_eq_none.1 hlocal v (List.mem_reverse.2 hv)
      simpa using this
    simp only [Option.map_none] at h
    rcases hidx : ctx.params.findIdx? (· == p) with _ | i <;> rw [hidx] at h
    · -- nor is it a formal: only a captured token has a slot
      have hparams : ∀ q ∈ ctx.params, q ≠ p := fun q hq => by simpa using List.findIdx?_eq_none_iff.1 hidx q hq
      rcases hi : ctx.capture.paramIndex? p with _ | i <;> rcases hl : ctx.layout with _ | l <;> rw [hi, hl] at h
      · cases h
      · cases h
      · cases h
      obtain ⟨slot, b₁, hslot, hpure⟩ := bind_eq_ok h
      rcases hs : l.slot .param i with d | slot' <;> rw [hs] at hslot <;> cases hslot
      cases hpure
      refine ⟨rfl, .inr ⟨slot, rfl, fun s hs => ?_, i, l, hi, hl, hs⟩⟩
      rcases List.mem_append.1 hs with hs | hs
      · obtain ⟨q, hq, rfl⟩ := List.mem_map.1 hs
        exact hparams _ (List.fst_mem_of_mem_zipIdx hq)
      · obtain ⟨v, hv, rfl⟩ := List.mem_map.1 hs
        exact hscopes v hv
    · cases h
      obtain ⟨hi, hp, -⟩ := List.findIdx?_eq_some_iff_getElem.1 hidx
      have hp : ctx.params[i] = p := by simpa using hp
      have hfew := hfit.few
      have hmod : (if ctx.layout.isSome then i + 1 else i) % Nat.pow 2 16 = if ctx.layout.isSome then i + 1 else i := by
        refine Nat.mod_eq_of_lt ?_
        split <;> omega
      rw [hmod]
      refine ⟨rfl, .inl ⟨i, Innermost.append_left ⟨?_, fun j hj q d hq => ?_⟩ ?_⟩⟩
      · simp [hi, hp]
      · -- a later formal is another one
        rw [List.getElem?_map] at hq
        obtain ⟨y, hy, he⟩ := Option.map_eq_some_iff.1 hq
        rw [List.getElem?_zipIdx] at hy
        obtain ⟨q', hq', rfl⟩ := Option.map_eq_some_iff.1 hy
        obtain ⟨hj', rfl⟩ := List.getElem?_eq_some_iff.1 hq'
        cases he
        rw [← hp]
        intro heq
        have := hfit.params.getElem_inj_iff.1 heq
        omega
      · intro y hy
        obtain ⟨v, hv, rfl⟩ := List.mem_map.1 hy
        exact hscopes v hv
  · cases h
    obtain ⟨i, hi⟩ := Innermost.of_find? hlocal
    exact ⟨rfl, .inl ⟨_, (hi.map (f := FrameVar.localVar)).append_right⟩⟩

end EmitM

/-! ## Reading and writing variables -/

namespace Frame

variable {f : Frame} {x y : FrameVar} {v : Value}

theorem var?_setVar_self (h : (f.var? x).isSome) : (f.setVar x v).var? x = some v := by
  cases x with
  | arg i | localVar i =>
    obtain ⟨a, ha⟩ := Option.isSome_iff_exists.1 h
    have hi := (Array.getElem?_eq_some_iff.1 ha).1
    simp [setVar, var?, hi]
  | closure i => cases h

theorem var?_setVar_ne (h : y ≠ x) : (f.setVar x v).var? y = f.var? y := by
  cases x with
  | arg i =>
    cases y with
    | arg j => exact Array.getElem?_setIfInBounds_ne fun hij => h (by rw [hij])
    | localVar j | closure j => rfl
  | localVar i =>
    cases y with
    | arg j | closure j => rfl
    | localVar j => exact Array.getElem?_setIfInBounds_ne fun hij => h (by rw [hij])
  | closure i => rfl

theorem Keeps.setVar {ctx : EmitContext} {n : Nat} {p : Param} (h : (p, x) ∈ ctx.slots) :
    f.Keeps ctx n (f.setVar x v) where
  vars y hy _ := var?_setVar_ne fun hyx => hy p (hyx ▸ h)
  locals := by
    cases x with
    | arg i | closure i => rfl
    | localVar i => simp [Frame.setVar]

end Frame

namespace MachineM

variable {f : Frame} {x : FrameVar}

theorem effect_load {fc : FrameContext} {w : World} {v : Value} {ld : Instr}
    (hld : (∃ i, x = .arg i ∧ ld = .loadArg i) ∨ ∃ i, x = .localVar i ∧ ld = .loadLocal i) (hv : f.var? x = some v) :
    effect ld fc (f, w) = (.ok (), { f with stack := v :: f.stack }, w) := by
  rcases hld with ⟨i, rfl, rfl⟩ | ⟨i, rfl, rfl⟩
  · have hentry : entry f.args i fc (f, w) = (.ok v, f, w) := by
      simp only [entry, show f.args[i]? = some v from hv]
      rfl
    rw [effect, Act.bind_ok (Act.own_apply _ _), Act.bind_ok hentry, push_apply]
  · have hentry : entry f.locals i fc (f, w) = (.ok v, f, w) := by
      simp only [entry, show f.locals[i]? = some v from hv]
      rfl
    rw [effect, Act.bind_ok (Act.own_apply _ _), Act.bind_ok hentry, push_apply]

theorem effect_store {fc : FrameContext} {w : World} {v : Value} {st : Instr} {base : List Value}
    (hst : (∃ i, x = .arg i ∧ st = .storeArg i) ∨ ∃ i, x = .localVar i ∧ st = .storeLocal i)
    (hx : (f.var? x).isSome) (hstack : f.stack = v :: base) :
    effect st fc (f, w) = (.ok (), { f.setVar x v with stack := base }, w) := by
  obtain ⟨v₀, hv₀⟩ := Option.isSome_iff_exists.1 hx
  rcases hst with ⟨i, rfl, rfl⟩ | ⟨i, rfl, rfl⟩
  · have hi : i < f.args.size := (Array.getElem?_eq_some_iff.1 hv₀).1
    rw [effect, Act.bind_ok (pop_apply hstack), storeArg, Act.bind_ok (Act.own_apply _ _)]
    simp only [hi, if_true]
    rfl
  · have hi : i < f.locals.size := (Array.getElem?_eq_some_iff.1 hv₀).1
    rw [effect, Act.bind_ok (pop_apply hstack), storeLocal, Act.bind_ok (Act.own_apply _ _)]
    simp only [hi, if_true]
    rfl

end MachineM

/-- The variables of a unit are arguments and locals. -/
theorem EmitContext.mem_slots {ctx : EmitContext} {p : Param} {x : FrameVar} (h : (p, x) ∈ ctx.slots) :
    (∃ i, x = .arg i) ∨ ∃ i, x = .localVar i := by
  rcases List.mem_append.1 h with h | h
  · obtain ⟨q, -, he⟩ := List.mem_map.1 h
    cases he
    exact .inl ⟨_, rfl⟩
  · obtain ⟨q, -, he⟩ := List.mem_map.1 h
    cases he
    exact .inr ⟨_, rfl⟩

namespace Bridge

variable {B : Bridge} {ctx : EmitContext} {α : Type} {m n : Nat} {p : Param} {x : FrameVar} {i : Nat} {κ : B.Stage}
  {handling : List Value} {f : Frame} {vars : Activation} {b : Builder}

/-- The innermost variable of a token in the frame and in the activation. -/
theorem Corresponds.own (h : B.Corresponds ctx κ handling f vars) (hin : Innermost ctx.slots p x i) :
    ∃ v a, f.var? x = some v ∧ B.value κ p.ty v a ∧ Innermost vars.toList p a i := by
  obtain ⟨a, ha, -, v, hv, hvalue⟩ := hin.forall₂ h.vars fun _ _ hxy => hxy.1
  exact ⟨v, a, hv, hvalue, ha⟩

/-- A variable gets a new value on both sides. -/
theorem Corresponds.set {v a : Value} (h : B.Corresponds ctx κ handling f vars) (hfit : ctx.Fits b)
    (hin : Innermost ctx.slots p x i) (hv : B.value κ p.ty v a) :
    B.Corresponds ctx κ handling (f.setVar x v) (EvalM.setValue vars i a) where
  vars := by
    obtain ⟨v₀, a₀, hv₀, -, ha₀⟩ := h.own hin
    have hlen := h.vars.length_eq
    refine List.forall₂_iff_get.2 ⟨by simpa [EvalM.setValue] using hlen, fun j hj hj' => ?_⟩
    have hold := h.vars.get hj (by omega)
    have hslot : ctx.slots[i]? = some (p, x) := hin.here
    by_cases hij : j = i
    · subst hij
      have hp : ctx.slots.get ⟨j, hj⟩ = (p, x) := by simpa [hj] using hslot
      rw [hp] at hold ⊢
      refine ⟨?_, v, Frame.var?_setVar_self (by rw [hv₀]; rfl), ?_⟩
      · simpa [EvalM.setValue, Array.getElem_modify] using hold.1
      · simpa [EvalM.setValue, Array.getElem_modify] using hv
    · -- variables are kept apart
      have hne : (ctx.slots.get ⟨j, hj⟩).2 ≠ x := by
        intro heq
        have hsnd : (ctx.slots.map Prod.snd)[j]? = (ctx.slots.map Prod.snd)[i]? := by
          rw [List.getElem?_map, List.getElem?_map, hslot, List.getElem?_eq_getElem hj]
          exact congrArg some heq
        exact hij ((List.getElem?_inj (by simpa using hj) hfit.apart).1 hsnd)
      obtain ⟨hname, v', hv', hvalue⟩ := hold
      refine ⟨?_, v', (Frame.var?_setVar_ne hne).trans hv', ?_⟩
      · simpa [EvalM.setValue, Array.getElem_modify, Ne.symm hij] using hname
      · simpa [EvalM.setValue, Array.getElem_modify, Ne.symm hij] using hvalue
  handling := by
    have hapart : ∀ k ∈ ctx.catchLocals, FrameVar.localVar k ≠ x := by
      intro k hk heq
      exact (hfit.hidden k hk).2 p (heq ▸ List.mem_of_getElem? hin.here)
    refine ((List.forall₂_and_left _ _).2 ⟨hapart, h.handling⟩).imp fun k e ⟨hk, he⟩ => ⟨?_, he.2⟩
    exact (Frame.var?_setVar_ne hk).trans he.1

/-- The evaluator finds a token where the generator has found it. -/
theorem Sim.own {y : EmitM Unit} {Pre : B.Stage → List Value → Prop} {Post : B.Stage → α → List Value → Prop}
    {g : EvalVar → EvalM α} (hin : Innermost ctx.slots p x i) (h : B.Sim ctx m n Pre y (g (.own i)) Post) :
    B.Sim ctx m n Pre y (EvalM.lookup p >>= g) Post := by
  refine ⟨h.emits,
    fun {b b' D u} ht hfit hpast hrun hlink {κ handling f vars w wE vs base} hready hstack hlen hpre => ?_⟩
  obtain ⟨v, a, -, -, ha⟩ := hready.corresponds.own hin
  have hlookup : EvalM.lookup p (B.eval handling) (vars, wE) = (.ok (.own i), vars, wE) := by
    rw [EvalM.lookup, Act.bind_ok (Act.own_apply _ _)]
    simp only [EvalM.position?_of_innermost ha]
    rfl
  rw [Act.bind_ok hlookup]
  exact h.runs ht hfit hpast hrun hlink hready hstack hlen hpre

/-- A variable of the unit is loaded by one instruction. -/
theorem loadVar_slot (hs : (p, x) ∈ ctx.slots) (ty : Ty) : ∃ ld, ((∃ i, x = .arg i ∧ ld = .loadArg i) ∨
    ∃ i, x = .localVar i ∧ ld = .loadLocal i) ∧ EmitM.loadVar x ty = EmitM.emit ld ∧ ld ≠ .ret ∧
      ld.endsFlow = false := by
  rcases EmitContext.mem_slots hs with ⟨k, rfl⟩ | ⟨k, rfl⟩
  · exact ⟨.loadArg k, .inl ⟨k, rfl, rfl⟩, rfl, by simp, rfl⟩
  · exact ⟨.loadLocal k, .inr ⟨k, rfl, rfl⟩, rfl, by simp, rfl⟩

/-- A variable of the unit is loaded. -/
theorem Code.load (hin : Innermost ctx.slots p x i) :
    B.Code ctx [] 1 (EmitM.loadVar x p.ty) (EvalM.access.read (.own i)) fun a => [(p.ty, a)] := by
  obtain ⟨ld, hld, hload, hplain, hflow⟩ := loadVar_slot (List.mem_of_getElem? hin.here) p.ty
  have hemits : EmitM.Emits ctx 0 1 (EmitM.emit ld) := by
    rw [← hload]
    exact Emit.emits_loadVar x p.ty
  rw [hload]
  refine Sim.instr (Sim.straight ?_ (by simpa using hplain) (.inl (by simpa using hflow)) ?_)
  · rw [show [ld].forM EmitM.emit = EmitM.emit ld from bind_pure_unit]
    exact hemits
  · intro b u κ handling f vars w wE vs base hfit hready hstack hlen hpre
    obtain ⟨v, a, hv, hvalue, ha⟩ := hready.corresponds.own hin
    have hvs : vs = [] := List.length_eq_zero_iff.1 hlen
    subst hvs
    have hread : EvalM.access.read (.own i) (B.eval handling) (vars, wE) = (.ok a, vars, wE) := by
      have hget : vars[i]? = some (p, a) := by
        rw [← Array.getElem?_toList]
        exact ha.here
      show (Except.ok (EvalM.valueAt vars i), vars, wE) = _
      simp [EvalM.valueAt, hget]
    rw [show CodeUnit.effects [ld] = MachineM.effect ld from bind_pure_unit, MachineM.effect_load hld hv, hread]
    refine .inr ⟨κ, _, w, [v], rfl, hready.corresponds.after le_rfl rfl rfl, ?_, rfl, rfl, ?_, hready.world⟩
    · simp [hstack]
    · exact .cons hvalue .nil

/-- A value goes into a variable of the unit. -/
theorem Code.store (hin : Innermost ctx.slots p x i) (a : Value) :
    B.Code ctx [(p.ty, a)] 0 (EmitM.storeVar x) (EvalM.access.write (.own i) a) fun _ => [] := by
  obtain ⟨st, hst, hstore, hplain, hflow⟩ : ∃ st, ((∃ i, x = .arg i ∧ st = .storeArg i) ∨
      ∃ i, x = .localVar i ∧ st = .storeLocal i) ∧ EmitM.storeVar x = EmitM.emit st ∧ st ≠ .ret ∧
      st.endsFlow = false := by
    rcases EmitContext.mem_slots (List.mem_of_getElem? hin.here) with ⟨k, rfl⟩ | ⟨k, rfl⟩
    · exact ⟨.storeArg k, .inl ⟨k, rfl, rfl⟩, rfl, by simp, rfl⟩
    · exact ⟨.storeLocal k, .inr ⟨k, rfl, rfl⟩, rfl, by simp, rfl⟩
  have hemits : EmitM.Emits ctx 1 0 (EmitM.emit st) := by
    rw [← hstore]
    exact Emit.emits_storeVar x
  rw [hstore]
  refine Sim.instr (Sim.straight ?_ (by simpa using hplain) (.inl (by simpa using hflow)) ?_)
  · rw [show [st].forM EmitM.emit = EmitM.emit st from bind_pure_unit]
    exact hemits
  · intro b u κ handling f vars w wE vs base hfit hready hstack hlen hpre
    obtain ⟨v, rfl, hv⟩ := Holds.one hpre
    obtain ⟨v₀, -, hv₀, -, -⟩ := hready.corresponds.own hin
    have hwrite : EvalM.access.write (.own i) a (B.eval handling) (vars, wE) = (.ok (), EvalM.setValue vars i a, wE) :=
      rfl
    rw [show CodeUnit.effects [st] = MachineM.effect st from bind_pure_unit,
      MachineM.effect_store hst (by rw [hv₀]; rfl) hstack, hwrite]
    have hset := hready.corresponds.set hfit hin hv
    refine .inr ⟨κ, _, w, [], rfl, ⟨le_rfl, hset.congr rfl rfl, ?_⟩, rfl, ?_, rfl, .nil, hready.world⟩
    · have hkeeps := Frame.Keeps.setVar (f := f) (v := v) (n := b.locals.size) (List.mem_of_getElem? hin.here)
      exact ⟨fun y hy hn => (Frame.var?_congr rfl rfl y).trans (hkeeps.vars y hy hn), hkeeps.locals⟩
    · cases x <;> rfl

end Bridge

end ExprCompiler
