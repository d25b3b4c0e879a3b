/-
Private code in two runs. Each instruction takes related frames and worlds to related ones, so the runs of a unit, and
calls of related functions with related arguments, end alike. On the way the second run changes no closure but those
that stand for one of the first: what belongs to others stays as it was.
-/
import ExprCompiler.Proofs.Isolation.Code
import ExprCompiler.Proofs.Isolation.Mirror
import ExprCompiler.Proofs.Machine.Stack
import ExprCompiler.Invoke

namespace ExprCompiler

/-! ## Growth -/

/-- What a run among others does to its world: what it makes is new, and closures that are not its own stay. -/
structure Mirror.Grows (M : Mirror) (w : World) (M' : Mirror) (w' : World) : Prop where
  mirror : M.Extends M'
  fresh : ∀ c ∈ M'.closures, c ∈ M.closures ∨ w.closures.size ≤ c
  size : w.closures.size ≤ w'.closures.size
  others : ∀ c < w.closures.size, c ∉ M.closures → w'.closures[c]? = w.closures[c]?
  heap : w.heap.Keeps w'.heap

namespace Mirror.Grows

variable {M M' M'' : Mirror} {w w' w'' : World}

theorem refl (M : Mirror) (w : World) : M.Grows w M w :=
  ⟨.refl M, fun _ hc => .inl hc, Nat.le_refl _, fun _ _ _ => rfl, .refl _⟩

theorem trans (h : M.Grows w M' w') (h' : M'.Grows w' M'' w'') : M.Grows w M'' w'' where
  mirror := h.mirror.trans h'.mirror
  fresh c hc := by
    rcases h'.fresh c hc with hc | hc
    · exact h.fresh c hc
    · exact .inr (h.size.trans hc)
  size := h.size.trans h'.size
  others c hc hM := by
    have hM' : c ∉ M'.closures := fun hmem => by
      rcases h.fresh c hmem with hmem | hle
      · exact hM hmem
      · omega
    rw [h'.others c (Nat.lt_of_lt_of_le hc h.size) hM', h.others c hc hM]
  heap := h.heap.trans h'.heap

end Mirror.Grows

namespace Ground

variable {g : Ground} {M M' : Mirror} {w w' : World}

theorem forall₂_set {R : Value → Value → Prop} {xs ys : List Value} (h : List.Forall₂ R xs ys) (i : Nat) {v v' : Value}
    (hv : R v v') : List.Forall₂ R (xs.set i v) (ys.set i v') := by
  induction h generalizing i with
  | nil => exact .nil
  | cons hx hxs ih =>
    cases i with
    | zero => exact .cons hv hxs
    | succ i => exact .cons hx (ih i)

theorem forall₂_getElem? {R : Value → Value → Prop} {xs ys : List Value} (h : List.Forall₂ R xs ys) (i : Nat) :
    (xs[i]? = none ∧ ys[i]? = none) ∨ ∃ x y, xs[i]? = some x ∧ ys[i]? = some y ∧ R x y := by
  induction h generalizing i with
  | nil => exact .inl ⟨rfl, rfl⟩
  | cons hx _ ih =>
    cases i with
    | zero => exact .inr ⟨_, _, rfl, rfl, hx⟩
    | succ i => exact ih i

namespace Worlds

/-- Both runs make an exception object with the same message. -/
theorem newObject (hw : g.Worlds M w w') (cls : Class) (s : String) :
    ∃ M', M.Grows w' M' { w' with heap := (w'.heap.newObject cls #[.str s]).2 } ∧
      g.Worlds M' { w with heap := (w.heap.newObject cls #[.str s]).2 }
        { w' with heap := (w'.heap.newObject cls #[.str s]).2 } ∧
      g.Alike M' (w.heap.newObject cls #[.str s]).1 (w'.heap.newObject cls #[.str s]).1 := by
  have hkeep : ∀ h : Heap, h.Keeps (h.newObject cls #[.str s]).2 := fun h =>
    ⟨fun i hi => Array.getElem?_push_lt hi |>.trans (Array.getElem?_eq_getElem hi).symm, rfl⟩
  have hM : M.Extends { M with objects := M.objects ++ [w'.heap.objects.size] } :=
    ⟨List.prefix_rfl, List.prefix_append _ _⟩
  refine ⟨{ M with objects := M.objects ++ [w'.heap.objects.size] },
    ⟨hM, fun c hc => .inl hc, Nat.le_refl _, fun _ _ _ => rfl, hkeep _⟩,
    { hw with
      objectSize := ?_
      heap := hw.heap.trans (hkeep _)
      heap' := hw.heap'.trans (hkeep _)
      objectImage := fun o ho => ?_
      objectNodup := ?_
      items := fun i i' hi => ?_
      fields := fun i i' hi => ?_ }, ?_⟩
  · simp [Heap.newObject, hw.objectSize, Nat.add_assoc]
  · rcases List.mem_append.1 ho with ho | ho
    · exact hw.objectImage o ho
    · rw [List.mem_singleton.1 ho]
      exact hw.heap'.size_le
  · refine List.nodup_append.2 ⟨hw.objectNodup, by simp, fun o ho o' ho' => ?_⟩
    rw [List.mem_singleton.1 ho']
    exact Nat.ne_of_lt (hw.objectImage_lt o ho)
  · obtain ⟨c, c', h, h', hs, hitems⟩ := hw.items i i' hi
    exact ⟨c, c', h, h', hs, hitems.imp fun _ _ hv => hv.mono hM⟩
  · rcases Nat.lt_trichotomy i M.objects.length with hlt | heq | hgt
    · rw [List.getElem?_append_left hlt] at hi
      obtain ⟨t, h, h'⟩ := hw.fields i i' hi
      refine ⟨t, ?_, ?_⟩
      · rw [(hkeep w.heap).objects _ (by have := hw.objectSize; omega), h]
      · rw [(hkeep w'.heap).objects _ (hw.objectImage_lt i' (List.mem_of_getElem? hi)), h']
    · subst heq
      obtain rfl : w'.heap.objects.size = i' := by simpa using hi
      refine ⟨s, ?_, by simp [Heap.newObject]⟩
      rw [← hw.objectSize]
      simp [Heap.newObject]
    · rw [List.getElem?_eq_none (by simp; omega)] at hi
      cases hi
  · rw [Heap.newObject, Heap.newObject, hw.objectSize]
    exact .object cls (by simp)

/-- Both runs raise an exception of one class with one message. -/
theorem raise (hw : g.Worlds M w w') {c c' : Cause} (h : g.Causes M c c') :
    ∃ M', M.Grows w' M' { w' with heap := (w'.heap.raise c').2 } ∧
      g.Worlds M' { w with heap := (w.heap.raise c).2 } { w' with heap := (w'.heap.raise c').2 } ∧
      g.Alike M' (w.heap.raise c).1 (w'.heap.raise c').1 := by
  simp only [Heap.raise, h.cls, h.message w w' hw]
  exact hw.newObject c.cls (c.message w.heap)

/-- Both runs build a closure from related items. -/
theorem newClosure (hw : g.Worlds M w w') (strategy : Strategy) {vs vs' : List Value}
    (hvs : List.Forall₂ (g.Alike M) vs vs') :
    ∃ M', M.Grows w' M' (w'.newClosure ⟨strategy, vs'.toArray⟩).2 ∧
      g.Worlds M' (w.newClosure ⟨strategy, vs.toArray⟩).2 (w'.newClosure ⟨strategy, vs'.toArray⟩).2 ∧
      ∃ i, (w.newClosure ⟨strategy, vs.toArray⟩).1 = ⟨g.world.closures.size + i⟩ ∧
        M'.closures[i]? = some (w'.newClosure ⟨strategy, vs'.toArray⟩).1.id := by
  -- the mirror sends the new closure of one run to that of the other
  have hM : M.Extends { M with closures := M.closures ++ [w'.closures.size] } :=
    ⟨List.prefix_append _ _, List.prefix_rfl⟩
  have hle : g.world.closures.size ≤ w'.closures.size := by
    by_contra hlt
    have := hw.old' w'.closures.size (by omega)
    rw [Array.getElem?_eq_none (Nat.le_refl _), eq_comm, Array.getElem?_eq_none_iff] at this
    omega
  have hpush : ∀ {cs : Array Closure} {c : Closure} {i : Nat}, i < cs.size → (cs.push c)[i]? = cs[i]? := fun hi =>
    Array.getElem?_push_lt hi |>.trans (Array.getElem?_eq_getElem hi).symm
  refine ⟨{ M with closures := M.closures ++ [w'.closures.size] },
    ⟨hM, fun c hc => ?_, by simp [World.newClosure], fun c hc _ => hpush hc, .refl _⟩,
    { hw with
      size := ?_
      old := fun c hc => ?_
      old' := fun c hc => ?_
      image := fun c hc => ?_
      nodup := ?_
      items := fun i i' hi => ?_ }, M.closures.length, ?_, ?_⟩
  · rcases List.mem_append.1 hc with hc | hc
    · exact .inl hc
    · exact .inr (by rw [List.mem_singleton.1 hc])
  · simp [World.newClosure, hw.size, Nat.add_assoc]
  · have := hw.size
    rw [← hw.old c hc]
    exact hpush (by omega)
  · rw [← hw.old' c hc]
    exact hpush (by omega)
  · rcases List.mem_append.1 hc with hc | hc
    · exact hw.image c hc
    · rw [List.mem_singleton.1 hc]
      exact hle
  · refine List.nodup_append.2 ⟨hw.nodup, by simp, fun c hc c' hc' => ?_⟩
    rw [List.mem_singleton.1 hc']
    exact Nat.ne_of_lt (hw.image_lt c hc)
  · rcases Nat.lt_trichotomy i M.closures.length with hlt | heq | hgt
    · rw [List.getElem?_append_left hlt] at hi
      obtain ⟨c, c', h, h', hs, hitems⟩ := hw.items i i' hi
      refine ⟨c, c', ?_, ?_, hs, hitems.imp fun _ _ hv => hv.mono hM⟩
      · exact (hpush (by have := hw.size; omega)).trans h
      · exact (hpush (hw.image_lt i' (List.mem_of_getElem? hi))).trans h'
    · subst heq
      obtain rfl : w'.closures.size = i' := by simpa using hi
      refine ⟨⟨strategy, vs.toArray⟩, ⟨strategy, vs'.toArray⟩, ?_, by simp [World.newClosure], rfl,
        hvs.imp fun _ _ hv => hv.mono hM⟩
      rw [← hw.size]
      simp [World.newClosure]
    · rw [List.getElem?_eq_none (by simp; omega)] at hi
      cases hi
  · simp [World.newClosure, hw.size]
  · simp [World.newClosure]

/-- Both runs assign an item of a closure that was made on the way. -/
theorem setItem (hw : g.Worlds M w w') {i i' : Nat} (hi : M.closures[i]? = some i') {c c' : Closure}
    (hc : w.closures[g.world.closures.size + i]? = some c) (hc' : w'.closures[i']? = some c') (slot : Nat)
    {v v' : Value} (hv : g.Alike M v v') (hs : c'.strategy = c.strategy)
    (hitems : List.Forall₂ (g.Alike M) c.items.toList c'.items.toList) :
    M.Grows w' M (w'.setClosure ⟨i'⟩ { c' with items := c'.items.setIfInBounds slot v' }) ∧
      g.Worlds M (w.setClosure ⟨g.world.closures.size + i⟩ { c with items := c.items.setIfInBounds slot v })
        (w'.setClosure ⟨i'⟩ { c' with items := c'.items.setIfInBounds slot v' }) := by
  have hne : ∀ {cs : Array Closure} {d : Closure} {j k : Nat}, j ≠ k → (cs.setIfInBounds j d)[k]? = cs[k]? :=
    fun hjk => Array.getElem?_setIfInBounds_ne hjk
  have hmem := List.mem_of_getElem? hi
  refine ⟨⟨.refl M, fun c hc =>
    .inl hc, by simp [World.setClosure], fun k hk hM => hne fun e => hM (e ▸ hmem), .refl _⟩, { hw with
      size := by simp [World.setClosure, hw.size]
      old := fun k hk => ?_
      old' := fun k hk => ?_
      items := fun k k' hk => ?_ }⟩
  · rw [← hw.old k hk]
    exact hne (show g.world.closures.size + i ≠ k by omega)
  · have hle := hw.image i' hmem
    rw [← hw.old' k hk]
    exact hne (show i' ≠ k by omega)
  · by_cases hki : k = i
    · subst hki
      obtain rfl : i' = k' := Option.some.inj (hi.symm.trans hk)
      refine ⟨{ c with items := c.items.setIfInBounds slot v }, { c' with items := c'.items.setIfInBounds slot v' },
        ?_, ?_, hs, ?_⟩
      · exact Array.getElem?_setIfInBounds_self_of_lt (Array.getElem?_eq_some_iff.1 hc).1
      · exact Array.getElem?_setIfInBounds_self_of_lt (Array.getElem?_eq_some_iff.1 hc').1
      · simpa using forall₂_set hitems slot hv
    · obtain ⟨d, d', h, h', rest⟩ := hw.items k k' hk
      refine ⟨d, d', ?_, ?_, rest⟩
      · rw [← h]
        exact hne (show g.world.closures.size + i ≠ g.world.closures.size + k by omega)
      · rw [← h']
        refine hne fun e => hki ?_
        subst e
        obtain ⟨hlt, hi⟩ := List.getElem?_eq_some_iff.1 hi
        obtain ⟨hlt', hk⟩ := List.getElem?_eq_some_iff.1 hk
        exact (List.Nodup.getElem_inj_iff hw.nodup).1 (hk.trans hi.symm)

end Worlds

/-! ## Frames and outcomes -/

/-- Frames that stand for each other. -/
structure Frames (g : Ground) (M : Mirror) (f f' : Frame) : Prop where
  args : List.Forall₂ (g.Alike M) f.args.toList f'.args.toList
  locals : List.Forall₂ (g.Alike M) f.locals.toList f'.locals.toList
  stack : List.Forall₂ (g.Alike M) f.stack f'.stack
  pending : List.Forall₂ (Option.Rel (g.Alike M)) f.pending f'.pending

theorem alikes_mono (hM : M.Extends M') {vs vs' : List Value} (h : List.Forall₂ (g.Alike M) vs vs') :
    List.Forall₂ (g.Alike M') vs vs' :=
  h.imp fun _ _ hv => hv.mono hM

theorem Frames.mono (hM : M.Extends M') {f f' : Frame} (h : g.Frames M f f') : g.Frames M' f f' where
  args := alikes_mono hM h.args
  locals := alikes_mono hM h.locals
  stack := alikes_mono hM h.stack
  pending := h.pending.imp fun _ _ ho => by
    cases ho with
    | none => exact .none
    | some hv => exact .some (hv.mono hM)

variable {α β : Type}

/-- Ends that stand for each other. -/
inductive Ends (g : Ground) (M : Mirror) (R : α → α → Prop) : Except Stop α → Except Stop α → Prop
  | ok {a a' : α} (h : R a a') : Ends g M R (.ok a) (.ok a')
  | thrown {v v' : Value} (h : g.Alike M v v') : Ends g M R (.error (.thrown v)) (.error (.thrown v'))
  | defect (d : Defect) : Ends g M R (.error (.defect d)) (.error (.defect d))
  | exhausted : Ends g M R (.error .exhausted) (.error .exhausted)

/-- Where two calls come to from related worlds, the second of them from `w'`. -/
def Meet (g : Ground) (M : Mirror) (w' : World) (r r' : Except Stop Value × World) : Prop :=
  ∃ M', M.Grows w' M' r'.2 ∧ g.Worlds M' r.2 r'.2 ∧ g.Ends M' (g.Alike M') r.1 r'.1

/-- Functions that end alike when they are called alike. -/
def Invokes (g : Ground) (inv inv' : Invoker) : Prop :=
  ∀ {M : Mirror} {w w' : World} {f f' : Callable} {args args' : List Value}, g.Worlds M w w' →
    g.Alike M (.func f) (.func f') → List.Forall₂ (g.Alike M) args args' → g.Meet M w' (inv f args w) (inv' f' args' w')

/-- The closures of two frames. Items are assigned only in a closure that was made on the way; one of the ground holds
code alone. -/
inductive Closures (g : Ground) (M : Mirror) (stores : Bool) : Option ClosureRef → Option ClosureRef → Prop
  | none : Closures g M stores none none
  | made {i i' : Nat} (hi : M.closures[i]? = some i') :
    Closures g M stores (some ⟨g.world.closures.size + i⟩) (some ⟨i'⟩)
  | old {c : ClosureRef} {k : Closure} (hc : g.world.closures[c.id]? = some k)
    (hk : ∀ v ∈ k.items.toList, g.Alike {} v v) (hs : stores = false) : Closures g M stores (some c) (some c)

/-- The surroundings of two frames. -/
structure Contexts (g : Ground) (M : Mirror) (stores : Bool) (ctx ctx' : FrameContext) : Prop where
  inv : g.Invokes ctx.inv ctx'.inv
  closure : g.Closures M stores ctx.closure ctx'.closure

theorem Contexts.mono {stores : Bool} (hM : M.Extends M') {ctx ctx' : FrameContext} (h : g.Contexts M stores ctx ctx') :
    g.Contexts M' stores ctx ctx' := by
  refine ⟨h.inv, ?_⟩
  obtain ⟨-, hc⟩ := h
  generalize ctx.closure = c at hc
  generalize ctx'.closure = c' at hc
  cases hc with
  | none => exact .none
  | made hi => exact .made (Mirror.getElem?_of_prefix hM.closures hi)
  | old hc hk hs => exact .old hc hk hs

end Ground

namespace MachineM

variable {ctx : FrameContext} {f : Frame} {w : World} {c : ClosureRef} {slot : Nat} {v : Value}

theorem loadItem_none (h : ctx.closure = none) :
    loadItem slot ctx (f, w) = (.error (.defect .frameWithoutClosure), f, w) := by
  have hx : closureRef ctx (f, w) = (.error (.defect .frameWithoutClosure), f, w) := by
    rw [closureRef, Act.bind_ok (Act.read_apply ctx (f, w)), h]
    rfl
  rw [loadItem, Act.bind_error hx]

theorem closureRef_some (h : ctx.closure = some c) : closureRef ctx (f, w) = (.ok c, f, w) := by
  rw [closureRef, Act.bind_ok (Act.read_apply ctx (f, w)), h]
  rfl

theorem loadItem_some (h : ctx.closure = some c) :
    loadItem slot ctx (f, w) = Act.check ((w.closure c).get slot) ctx (f, w) := by
  rw [loadItem, Act.bind_ok (closureRef_some h)]
  rfl

theorem storeItem_none (h : ctx.closure = none) :
    storeItem slot v ctx (f, w) = (.error (.defect .frameWithoutClosure), f, w) := by
  have hx : closureRef ctx (f, w) = (.error (.defect .frameWithoutClosure), f, w) := by
    rw [closureRef, Act.bind_ok (Act.read_apply ctx (f, w)), h]
    rfl
  rw [storeItem, Act.bind_error hx]

theorem storeItem_some (h : ctx.closure = some c) :
    storeItem slot v ctx (f, w) = match (w.closure c).set slot v with
      | .ok items => (.ok (), f, w.setClosure c items)
      | .error d => (.error (.defect d), f, w) := by
  rw [storeItem, Act.bind_ok (closureRef_some h), Act.bind_ok (Act.world_apply ctx (f, w))]
  cases (w.closure c).set slot v <;> rfl

end MachineM

namespace Ground

variable {g : Ground} {M M' : Mirror} {w w' : World} {α β : Type}

/-! ## Computations -/

/-- Where two computations of the machine come to. -/
def Goes (g : Ground) (M : Mirror) (w' : World) (R : Mirror → α → α → Prop) (x x' : Except Stop α × Frame × World) :
    Prop :=
  ∃ M', M.Grows w' M' x'.2.2 ∧ g.Worlds M' x.2.2 x'.2.2 ∧ g.Frames M' x.2.1 x'.2.1 ∧ g.Ends M' (R M') x.1 x'.1

/-- Two computations of the machine come to related ends from related frames and worlds. -/
def Agree (g : Ground) (M : Mirror) (ctx ctx' : FrameContext) (R : Mirror → α → α → Prop) (x x' : MachineM α) : Prop :=
  ∀ (f f' : Frame) (w w' : World), g.Worlds M w w' → g.Frames M f f' → g.Goes M w' R (x ctx (f, w)) (x' ctx' (f', w'))

variable {ctx ctx' : FrameContext} {stores : Bool} {R : Mirror → α → α → Prop} {f f' : Frame}
  {c c' : Option ClosureRef}

/-- A relation of results that says nothing. -/
def anything (_ : Mirror) (_ _ : α) : Prop := True

theorem goes_ok {a a' : α} (hw : g.Worlds M w w') (hf : g.Frames M f f')
    (h : R M a a') : g.Goes M w' R (.ok a, f, w) (.ok a', f', w') :=
  ⟨M, .refl M w', hw, hf, .ok h⟩

theorem goes_defect (hw : g.Worlds M w w') (hf : g.Frames M f f')
    (d : Defect) : g.Goes M w' R (.error (.defect d), f, w) (.error (.defect d), f', w') :=
  ⟨M, .refl M w', hw, hf, .defect d⟩

theorem Goes.bind {S : Mirror → β → β → Prop} {x x' : MachineM α} {y y' : α → MachineM β}
    {s s' : Frame × World} (hx : g.Goes M w' R (x ctx s) (x' ctx' s'))
    (hy : ∀ M' a a', M.Extends M' → R M' a a' → g.Agree M' ctx ctx' S (y a) (y' a')) :
    g.Goes M w' S ((x >>= y) ctx s) ((x' >>= y') ctx' s') := by
  obtain ⟨M₁, hgrow, hw₁, hf₁, hends⟩ := hx
  rcases hxs : x ctx s with ⟨r, f₁, w₁⟩
  rcases hxs' : x' ctx' s' with ⟨r', f₁', w₁'⟩
  rw [hxs, hxs'] at hends hw₁ hf₁
  rw [hxs'] at hgrow
  cases hends with
  | ok h =>
    rw [Act.bind_ok hxs, Act.bind_ok hxs']
    obtain ⟨M₂, hgrow₂, rest⟩ := hy M₁ _ _ hgrow.mirror h _ _ _ _ hw₁ hf₁
    exact ⟨M₂, hgrow.trans hgrow₂, rest⟩
  | thrown h =>
    rw [Act.bind_error hxs, Act.bind_error hxs']
    exact ⟨M₁, hgrow, hw₁, hf₁, .thrown h⟩
  | defect d =>
    rw [Act.bind_error hxs, Act.bind_error hxs']
    exact ⟨M₁, hgrow, hw₁, hf₁, .defect d⟩
  | exhausted =>
    rw [Act.bind_error hxs, Act.bind_error hxs']
    exact ⟨M₁, hgrow, hw₁, hf₁, .exhausted⟩

namespace Agree

variable {R : Mirror → α → α → Prop} {S : Mirror → β → β → Prop} {v v' : Value}

theorem of_pure {a a' : α} (h : R M a a') : g.Agree M ctx ctx' R (pure a) (pure a') :=
  fun _ _ _ _ hw hf => goes_ok hw hf h

theorem bind {x x' : MachineM α} {y y' : α → MachineM β} (hx : g.Agree M ctx ctx' R x x')
    (hy : ∀ M' a a', M.Extends M' → R M' a a' → g.Agree M' ctx ctx' S (y a) (y' a')) :
    g.Agree M ctx ctx' S (x >>= y) (x' >>= y') :=
  fun f f' w w' hw hf => (hx f f' w w' hw hf).bind hy

/-- A rule may rely on there being related worlds. -/
theorem given {x x' : MachineM α} (h : ∀ w w', g.Worlds M w w' → g.Agree M ctx ctx' R x x') :
    g.Agree M ctx ctx' R x x' :=
  fun f f' w w' hw hf => h w w' hw f f' w w' hw hf

theorem defect (d : Defect) : g.Agree M ctx ctx' R (Act.defect d) (Act.defect d) :=
  fun _ _ _ _ hw hf => goes_defect hw hf d

theorem throwing (h : g.Alike M v v') : g.Agree M ctx ctx' R (Act.throwing v) (Act.throwing v') :=
  fun _ _ _ w' hw hf => ⟨M, .refl M w', hw, hf, .thrown h⟩

/-- Both runs throw an exception of the same class with the same message. -/
theorem raise {c c' : Cause} (h : g.Causes M c c') : g.Agree M ctx ctx' R (Act.raise c) (Act.raise c') := by
  intro f f' w w' hw hf
  rw [Act.raise_apply, Act.raise_apply]
  obtain ⟨M', hgrow, hw', hv⟩ := hw.raise h
  exact ⟨M', hgrow, hw', hf.mono hgrow.mirror, .thrown hv⟩

theorem settle {r r' : Except Cause Value} (h : g.Settles M r r') :
    g.Agree M ctx ctx' g.Alike (Act.settle r) (Act.settle r') := by
  cases h with
  | ok h => exact of_pure h
  | error h => exact raise h

theorem check {r r' : Except Defect α} (h : (∃ a a', r = .ok a ∧ r' = .ok a' ∧ R M a a') ∨
    ∃ d, r = .error d ∧ r' = .error d) : g.Agree M ctx ctx' R (Act.check r) (Act.check r') := by
  rcases h with ⟨a, a', rfl, rfl, ha⟩ | ⟨d, rfl, rfl⟩
  · exact of_pure ha
  · exact defect d

/-! ## The stack -/

theorem push (h : g.Alike M v v') :
    g.Agree M ctx ctx' anything (MachineM.push v) (MachineM.push v') :=
  fun _ _ _ _ hw hf => goes_ok hw { hf with stack := .cons h hf.stack } trivial

theorem pop : g.Agree M ctx ctx' g.Alike MachineM.pop MachineM.pop := by
  intro f f' w w' hw hf
  obtain ⟨args, locals, stack, pending⟩ := f
  obtain ⟨args', locals', stack', pending'⟩ := f'
  cases hf.stack with
  | nil => exact goes_defect hw hf _
  | cons hv hvs => exact goes_ok hw { hf with stack := hvs } hv

theorem popMany (n : Nat) :
    g.Agree M ctx ctx' (fun M => List.Forall₂ (g.Alike M)) (MachineM.popMany n) (MachineM.popMany n) := by
  intro f f' w w' hw hf
  have hlen := hf.stack.length_eq
  rw [MachineM.popMany, Act.bind_ok (Act.own_apply ctx (f, w)), Act.bind_ok (Act.own_apply ctx' (f', w'))]
  dsimp only
  rw [← hlen]
  split
  · exact goes_defect hw hf _
  · exact goes_ok hw { hf with stack := List.forall₂_drop n hf.stack }
      (List.rel_reverse (List.forall₂_take n hf.stack))

theorem top : g.Agree M ctx ctx' g.Alike MachineM.top MachineM.top := by
  intro f f' w w' hw hf
  obtain ⟨args, locals, stack, pending⟩ := f
  obtain ⟨args', locals', stack', pending'⟩ := f'
  cases hf.stack with
  | nil => exact goes_defect hw hf _
  | cons hv _ => exact goes_ok hw hf hv

theorem unary {op : Value → Except Cause Value} (h : ∀ M' v v', g.Alike M' v v' → g.Settles M' (op v) (op v')) :
    g.Agree M ctx ctx' anything (MachineM.unary op) (MachineM.unary op) :=
  pop.bind fun M' v v' _ hv => (settle (h M' v v' hv)).bind fun _ _ _ _ hr => push hr

theorem binary {op : Value → Value → Except Cause Value}
    (h : ∀ M' w w' a a' b b', g.Worlds M' w w' → g.Alike M' a a' → g.Alike M' b b' → g.Settles M' (op a b) (op a' b')) :
    g.Agree M ctx ctx' anything (MachineM.binary op) (MachineM.binary op) :=
  pop.bind fun _ _ _ _ hb => pop.bind fun _ _ _ hM ha => given fun w w' hw =>
    (settle (h _ w w' _ _ _ _ hw ha (hb.mono hM))).bind fun _ _ _ _ hr => push hr

/-! ## Variables -/

theorem entry {xs xs' : Array Value} (h : List.Forall₂ (g.Alike M) xs.toList xs'.toList) (i : Nat) :
    g.Agree M ctx ctx' g.Alike (MachineM.entry xs i) (MachineM.entry xs' i) := by
  have hlen : xs.size = xs'.size := by simpa using h.length_eq
  unfold MachineM.entry
  rcases forall₂_getElem? h i with ⟨hx, hx'⟩ | ⟨v, v', hx, hx', hv⟩
  · rw [Array.getElem?_toList] at hx hx'
    rw [hx, hx', hlen]
    exact defect _
  · rw [Array.getElem?_toList] at hx hx'
    rw [hx, hx']
    exact of_pure hv

theorem loadArg (i : Nat) : g.Agree M ctx ctx' g.Alike (do MachineM.entry (← Act.own).args i) (do
    MachineM.entry (← Act.own).args i) :=
  fun f f' w w' hw hf => entry hf.args i f f' w w' hw hf

theorem loadLocal (i : Nat) : g.Agree M ctx ctx' g.Alike (do MachineM.entry (← Act.own).locals i) (do
    MachineM.entry (← Act.own).locals i) :=
  fun f f' w w' hw hf => entry hf.locals i f f' w w' hw hf

theorem storeArg (i : Nat) (h : g.Alike M v v') :
    g.Agree M ctx ctx' anything (MachineM.storeArg i v) (MachineM.storeArg i v') := by
  intro f f' w w' hw hf
  have hlen : f.args.size = f'.args.size := by simpa using hf.args.length_eq
  rw [MachineM.storeArg, MachineM.storeArg, Act.bind_ok (Act.own_apply ctx (f, w)),
    Act.bind_ok (Act.own_apply ctx' (f', w'))]
  dsimp only
  rw [← hlen]
  split
  · exact goes_ok hw { hf with args := by simpa using forall₂_set hf.args i h } trivial
  · exact goes_defect hw hf _

theorem storeLocal (i : Nat) (h : g.Alike M v v') :
    g.Agree M ctx ctx' anything (MachineM.storeLocal i v) (MachineM.storeLocal i v') := by
  intro f f' w w' hw hf
  have hlen : f.locals.size = f'.locals.size := by simpa using hf.locals.length_eq
  rw [MachineM.storeLocal, MachineM.storeLocal, Act.bind_ok (Act.own_apply ctx (f, w)),
    Act.bind_ok (Act.own_apply ctx' (f', w'))]
  dsimp only
  rw [← hlen]
  split
  · exact goes_ok hw { hf with locals := by simpa using forall₂_set hf.locals i h } trivial
  · exact goes_defect hw hf _

/-- What two frames find in their closures. -/
theorem closure_items (hctx : g.Contexts M stores ctx ctx') (hw : g.Worlds M w w') :
    (ctx.closure = none ∧ ctx'.closure = none) ∨
      ∃ c c', ctx.closure = some c ∧ ctx'.closure = some c' ∧
        List.Forall₂ (g.Alike M) (w.closure c).items.toList (w'.closure c').items.toList ∧
        (stores = true → ∃ i, c = ⟨g.world.closures.size + i⟩ ∧ M.closures[i]? = some c'.id) := by
  obtain ⟨-, hc⟩ := hctx
  generalize ctx.closure = c at hc
  generalize ctx'.closure = c' at hc
  cases hc with
  | none => exact .inl ⟨rfl, rfl⟩
  | @made i i' hi =>
    obtain ⟨k, k', hk, hk', -, hitems⟩ := hw.items i i' hi
    refine .inr ⟨_, _, rfl, rfl, ?_, fun _ => ⟨i, rfl, hi⟩⟩
    rw [World.closure, World.closure, hk, hk']
    exact hitems
  | @old c k hc hk hs =>
    have hlt := (Array.getElem?_eq_some_iff.1 hc).1
    refine .inr ⟨c, c, rfl, rfl, ?_, fun h => by rw [hs] at h; cases h⟩
    rw [World.closure, World.closure, hw.old c.id hlt, hw.old' c.id hlt, hc]
    exact List.forall₂_same.2 fun v hv => (hk v hv).mono ⟨List.nil_prefix, List.nil_prefix⟩

theorem loadItem (hctx : g.Contexts M stores ctx ctx') (slot : Nat) :
    g.Agree M ctx ctx' g.Alike (MachineM.loadItem slot) (MachineM.loadItem slot) := by
  intro f f' w w' hw hf
  rcases closure_items hctx hw with ⟨hc, hc'⟩ | ⟨c, c', hc, hc', hitems, -⟩
  · rw [MachineM.loadItem_none hc, MachineM.loadItem_none hc']
    exact goes_defect hw hf _
  · have hlen : (w.closure c).items.size = (w'.closure c').items.size := by simpa using hitems.length_eq
    rw [MachineM.loadItem_some hc, MachineM.loadItem_some hc', Closure.get, Closure.get, hlen]
    rcases forall₂_getElem? hitems slot with ⟨hx, hx'⟩ | ⟨v, v', hx, hx', hv⟩
    · rw [Array.getElem?_toList] at hx hx'
      rw [hx, hx']
      exact goes_defect hw hf _
    · rw [Array.getElem?_toList] at hx hx'
      rw [hx, hx']
      exact goes_ok hw hf hv

/-- Only a closure that was made on the way is changed. -/
theorem storeItem (hctx : g.Contexts M true ctx ctx') (slot : Nat) (hv : g.Alike M v v') :
    g.Agree M ctx ctx' anything (MachineM.storeItem slot v) (MachineM.storeItem slot v') := by
  intro f f' w w' hw hf
  rcases closure_items hctx hw with ⟨hc, hc'⟩ | ⟨c, ⟨i'⟩, hc, hc', -, hmade⟩
  · rw [MachineM.storeItem_none hc, MachineM.storeItem_none hc']
    exact goes_defect hw hf _
  · obtain ⟨i, rfl, hi⟩ := hmade rfl
    obtain ⟨k, k', hk, hk', hs, hitems⟩ := hw.items i i' hi
    have hlen : k.items.size = k'.items.size := by simpa using hitems.length_eq
    have hcl : w.closure ⟨g.world.closures.size + i⟩ = k := by rw [World.closure, hk]; rfl
    have hcl' : w'.closure ⟨i'⟩ = k' := by rw [World.closure, hk']; rfl
    rw [MachineM.storeItem_some hc, MachineM.storeItem_some hc', hcl, hcl', Closure.set, Closure.set, hlen]
    by_cases hlt : slot < k'.items.size
    · rw [if_pos hlt, if_pos hlt]
      obtain ⟨hgrow, hw'⟩ := hw.setItem hi hk hk' slot hv hs hitems
      exact ⟨M, hgrow, hw', hf, .ok trivial⟩
    · rw [if_neg hlt, if_neg hlt]
      exact goes_defect hw hf _

/-! ## Instructions -/

/-- The heap is read before the operands are taken. -/
theorem concat : g.Agree M ctx ctx' anything (MachineM.effect .concat) (MachineM.effect .concat) := by
  intro f f' w w' hw hf
  obtain ⟨args, locals, stack, pending⟩ := f
  obtain ⟨args', locals', stack', pending'⟩ := f'
  rcases hf.stack with _ | ⟨hb, _ | ⟨ha, hrest⟩⟩
  · exact goes_defect hw hf .stackUnderflow
  · have hf₁ : g.Frames M ⟨args, locals, [], pending⟩ ⟨args', locals', [], pending'⟩ :=
      ⟨hf.args, hf.locals, .nil, hf.pending⟩
    exact goes_defect hw hf₁ .stackUnderflow
  · refine goes_ok hw ⟨hf.args, hf.locals, .cons ?_ hrest, hf.pending⟩ trivial
    rw [ha.concat_eq hb hw]
    exact alike_of_isImmediate rfl

theorem invoke (hinv : g.Invokes ctx.inv ctx'.inv) {target target' : Value} (ht : g.Alike M target target')
    {args args' : List Value} (hargs : List.Forall₂ (g.Alike M) args args') :
    g.Agree M ctx ctx' g.Alike (Act.invoke ctx.inv target args) (Act.invoke ctx'.inv target' args') := by
  rcases ht.asCallable with ⟨f, f', hf, hf', hff⟩ | ⟨c, c', hc, hc', hcc⟩
  · rw [Act.invoke, Act.invoke, hf, hf']
    intro fr fr' w w' hw hfr
    obtain ⟨M', hgrow, hw', hends⟩ := hinv hw hff hargs
    show g.Goes M w' g.Alike (Act.onWorld (ctx.inv f args) ctx (fr, w)) (Act.onWorld (ctx'.inv f' args') ctx' (fr', w'))
    rw [Act.onWorld_apply, Act.onWorld_apply]
    exact ⟨M', hgrow, hw', hfr.mono hgrow.mirror, hends⟩
  · rw [Act.invoke, Act.invoke, hc, hc']
    have h : g.Agree M ctx ctx' (fun _ (_ _ : Callable) => False) (Act.raise c) (Act.raise c') := raise hcc
    exact h.bind fun _ _ _ _ h => h.elim

theorem newClosure (l : Layout) : g.Agree M ctx ctx' anything (MachineM.newClosure l) (MachineM.newClosure l) := by
  refine (popMany l.size).bind fun M₁ vs vs' _ hvs => ?_
  have hlen := hvs.length_eq
  have hnil : vs = [] ↔ vs' = [] := by rw [← List.length_eq_zero_iff, ← List.length_eq_zero_iff, hlen]
  refine Agree.bind (R := fun _ c c' => c = ⟨l.strategy, vs.toArray⟩ ∧ c' = ⟨l.strategy, vs'.toArray⟩) (check ?_) ?_
  · simp only [Layout.instantiate, hlen, hnil]
    split
    · exact .inr ⟨_, rfl, rfl⟩
    · split
      · exact .inr ⟨_, rfl, rfl⟩
      · exact .inl ⟨_, _, rfl, rfl, rfl, rfl⟩
  · rintro M₂ _ _ hM₂ ⟨rfl, rfl⟩ f f' w w' hw hf
    obtain ⟨M₃, hgrow, hw₃, i, hi, hi'⟩ := hw.newClosure l.strategy (alikes_mono hM₂ hvs)
    refine ⟨M₃, hgrow, hw₃, { hf.mono hgrow.mirror with stack := .cons ?_ (hf.mono hgrow.mirror).stack }, .ok trivial⟩
    have hnew : g.Alike M₃ (.closure (w.newClosure ⟨l.strategy, vs.toArray⟩).1)
        (.closure (w'.newClosure ⟨l.strategy, vs'.toArray⟩).1) := by
      rw [hi]
      exact .closure hi'
    exact hnew

theorem throw : g.Agree M ctx ctx' anything (MachineM.effect .throw) (MachineM.effect .throw) := by
  refine pop.bind fun M₁ v v' _ hv => ?_
  have hnull := hv.isNull_eq
  by_cases hn : v.isNull = true
  · obtain rfl : v = .null := by cases v <;> first | rfl | cases hn
    obtain rfl := hv.eq_of_isImmediate rfl
    exact raise (causes_refl fun _ _ => by simp)
  · have hthrown : ∀ {u : Value}, ¬ u.isNull = true → u.thrown = fun h => (u, h) := by
      intro u hu
      cases u <;> first | rfl | exact absurd rfl hu
    rw [hthrown hn, hthrown (by rwa [hnull])]
    exact throwing hv

theorem enterFinally : g.Agree M ctx ctx' anything (MachineM.effect .enterFinally) (MachineM.effect .enterFinally) :=
  fun _ _ _ _ hw hf => goes_ok hw { hf with pending := .cons .none hf.pending } trivial

theorem endFinally : g.Agree M ctx ctx' anything MachineM.endFinally MachineM.endFinally := by
  intro f f' w w' hw hf
  obtain ⟨args, locals, stack, pending⟩ := f
  obtain ⟨args', locals', stack', pending'⟩ := f'
  rcases hf.pending with _ | ⟨hp, hrest⟩
  · exact goes_defect hw hf .finallyUnopened
  · cases hp with
    | none => exact goes_ok hw ⟨hf.args, hf.locals, hf.stack, hrest⟩ trivial
    | some hv => exact ⟨M, .refl M w', hw, ⟨hf.args, hf.locals, hf.stack, hrest⟩, .thrown hv⟩

/-- Private instructions other than the binding of a closure. -/
theorem effect (hctx : g.Contexts M stores ctx ctx') {i : Instr} (hi : i.isPrivate stores = true) (hc : i ≠ .curry) :
    g.Agree M ctx ctx' anything (MachineM.effect i) (MachineM.effect i) := by
  cases i with
  | nop | branch _ _ | ret => exact of_pure trivial
  | const v => exact push (alike_of_isImmediate hi)
  | loadArg i => exact (loadArg i).bind fun _ _ _ _ hv => push hv
  | storeArg i => exact pop.bind fun _ _ _ _ hv => storeArg i hv
  | loadLocal i => exact (loadLocal i).bind fun _ _ _ _ hv => push hv
  | storeLocal i => exact pop.bind fun _ _ _ _ hv => storeLocal i hv
  | loadItem _ slot => exact (loadItem hctx slot).bind fun _ _ _ _ hv => push hv
  | storeItem _ slot =>
    obtain rfl : stores = true := hi
    exact pop.bind fun _ _ _ hM hv => storeItem (hctx.mono hM) slot hv
  | unbox ty => exact unary fun _ _ _ hv => hv.unbox ty
  | castClass ty => exact unary fun _ _ _ hv => hv.castClass ty
  | dup => exact top.bind fun _ _ _ _ hv => push hv
  | pop => exact pop.bind fun _ _ _ _ _ => of_pure trivial
  | arith op mode => exact binary fun _ _ _ _ _ _ _ _ ha hb => ha.arith hb op mode
  | complement => exact unary fun _ _ _ hv => hv.complement
  | compare op =>
    exact binary fun _ _ _ _ _ _ _ hw ha hb => by
      rw [ha.compareBy_eq hb hw]
      exact .ok (alike_of_isImmediate rfl)
  | genericEq =>
    exact binary fun _ _ _ _ _ _ _ hw ha hb => by
      rw [ha.same_eq hb hw]
      exact .ok (alike_of_isImmediate rfl)
  | concat => exact concat
  | invoke argc returns =>
    refine (popMany argc).bind fun _ _ _ hM hargs => pop.bind fun _ _ _ hM' ht => ?_
    refine Agree.bind (R := g.Alike) (invoke hctx.inv ht (alikes_mono hM' hargs)) fun _ _ _ _ hr => ?_
    cases returns with
    | true => exact push hr
    | false => exact of_pure trivial
  | default ty => exact push (.known (ty.known_zero _))
  | newClosure l => exact newClosure l
  | curry => exact absurd rfl hc
  | throw => exact throw
  | enterFinally => exact enterFinally
  | endFinally => exact endFinally
  | _ => cases hi

end Agree

/-- A closure that was made on the way stands for another such. -/
theorem Alike.closure_inv {c : ClosureRef} {v' : Value} (h : g.Alike M (.closure c) v')
    (hc : g.world.closures.size ≤ c.id) :
    ∃ i i', c = ⟨g.world.closures.size + i⟩ ∧ v' = .closure ⟨i'⟩ ∧ M.closures[i]? = some i' := by
  cases h with
  | known hv => cases hv.isData
  | @closure i i' hi => exact ⟨i, i', rfl, rfl, hi⟩
  | oldClosure hlt => omega

/-- A closure is bound where it has just been made. -/
theorem goes_curry (hw : g.Worlds M w w') (hf : g.Frames M f f') {c : ClosureRef} {rest : List Value}
    (htop : f.stack = .closure c :: rest) (hc : g.world.closures.size ≤ c.id) :
    g.Goes M w' anything (MachineM.curry ctx (f, w)) (MachineM.curry ctx' (f', w')) := by
  obtain ⟨args, locals, stack, pending⟩ := f
  obtain ⟨args', locals', stack', pending'⟩ := f'
  obtain rfl : stack = _ := htop
  have hframe : ∀ {xs xs' : List Value}, List.Forall₂ (g.Alike M) xs xs' →
      g.Frames M ⟨args, locals, xs, pending⟩ ⟨args', locals', xs', pending'⟩ := fun h =>
    ⟨hf.args, hf.locals, h, hf.pending⟩
  have hstack : List.Forall₂ (g.Alike M) _ stack' := hf.stack
  obtain _ | ⟨htop, hrest⟩ := hstack
  have hcd := htop.describe_eq hw
  obtain ⟨i, i', rfl, rfl, hi⟩ := htop.closure_inv hc
  cases hrest with
  | nil => exact goes_defect hw (hframe .nil) .stackUnderflow
  | @cons a a' rest rest' ha hrest =>
    have had := ha.describe_eq hw
    have hfail : g.Goes M w' (anything : _ → Unit → _)
        (.error (.defect (.curry (a.describe w.heap) (Value.describe w.heap (.closure ⟨g.world.closures.size + i⟩)))),
          ⟨args, locals, rest, pending⟩, w)
        (.error (.defect (.curry (a'.describe w'.heap) (Value.describe w'.heap (.closure ⟨i'⟩)))),
          ⟨args', locals', rest', pending'⟩, w') := by
      rw [had, hcd]
      exact goes_defect hw (hframe hrest) _
    cases ha with
    | known hv =>
      have := hv.isData
      cases a with
      | code _ => cases this
      | _ => exact hfail
    | code hu => exact goes_ok hw (hframe (.cons (.bound hu hi) hrest)) trivial
    | _ => exact hfail

/-! ## Steps -/

/-- What two instructions say about where control goes. -/
inductive Flows (g : Ground) (M : Mirror) : Flow → Flow → Prop
  | next : Flows g M .next .next
  | jump (pc : Nat) : Flows g M (.jump pc) (.jump pc)
  | ret {v v' : Value} (h : g.Alike M v v') : Flows g M (.ret v) (.ret v')

/-- Where a closure is bound, one made on the way lies on top of the stack. -/
def Ready (g : Ground) (u : CodeUnit) (pc : Nat) (f : Frame) : Prop :=
  u.instrs[pc]? = some .curry → ∃ c rest, f.stack = .closure c :: rest ∧ g.world.closures.size ≤ c.id

theorem agree_takes (kind : BranchKind) :
    g.Agree M ctx ctx' (fun _ b b' => b' = b) (MachineM.takes kind) (MachineM.takes kind) := by
  cases kind with
  | always => exact .of_pure rfl
  | ifTrue => exact Agree.pop.bind fun _ _ _ _ hv => .of_pure hv.isTrue_eq
  | ifFalse => exact Agree.pop.bind fun _ _ _ _ hv => .of_pure (by rw [hv.isTrue_eq])
  | ifNull => exact Agree.pop.bind fun _ _ _ _ hv => .of_pure hv.isNull_eq

theorem goes_exec (hctx : g.Contexts M stores ctx ctx') {i : Instr} (hi : i.isPrivate stores = true)
    (hw : g.Worlds M w w') (hf : g.Frames M f f')
    (hready : i = .curry → ∃ c rest, f.stack = .closure c :: rest ∧ g.world.closures.size ≤ c.id) :
    g.Goes M w' g.Flows (MachineM.exec i ctx (f, w)) (MachineM.exec i ctx' (f', w')) := by
  have heffect : g.Goes M w' anything (MachineM.effect i ctx (f, w)) (MachineM.effect i ctx' (f', w')) := by
    by_cases hc : i = .curry
    · subst hc
      obtain ⟨c, rest, htop, hle⟩ := hready rfl
      exact goes_curry hw hf htop hle
    · exact Agree.effect hctx hi hc f f' w w' hw hf
  have hplain : g.Goes M w' g.Flows ((MachineM.effect i >>= fun _ => pure .next) ctx (f, w))
      ((MachineM.effect i >>= fun _ => pure .next) ctx' (f', w')) :=
    heffect.bind fun _ _ _ _ _ => .of_pure .next
  cases i with
  | branch kind target =>
    refine Agree.bind (agree_takes kind) (fun _ b b' _ hb => ?_) f f' w w' hw hf
    subst hb
    cases b' with
    | true => exact .of_pure (.jump target)
    | false => exact .of_pure .next
  | ret => exact Agree.bind Agree.pop (fun _ _ _ _ hv => .of_pure (.ret hv)) f f' w w' hw hf
  | _ => exact hplain

/-- An instruction that leads to the binding of a closure has just made one. -/
theorem top_of_newClosure {l : Layout} {f₁ : Frame} {w₁ : World} {flow : Flow} (hw : g.Worlds M w w')
    (h : MachineM.exec (.newClosure l) ctx (f, w) = (.ok flow, f₁, w₁)) :
    ∃ c rest, f₁.stack = .closure c :: rest ∧ g.world.closures.size ≤ c.id := by
  rw [MachineM.exec_plain rfl (by simp)] at h
  obtain ⟨⟨⟩, ⟨f₂, w₂⟩, heffect, hflow⟩ := Act.bind_eq_ok h
  obtain ⟨vs, ⟨f₃, w₃⟩, hpop, hbuild⟩ := Act.bind_eq_ok heffect
  obtain ⟨c, ⟨f₄, w₄⟩, hcheck, hpush⟩ := Act.bind_eq_ok hbuild
  have hw₃ : w₃ = w := by
    rw [MachineM.popMany, Act.bind_ok (Act.own_apply ctx (f, w))] at hpop
    dsimp only at hpop
    split at hpop <;> cases hpop
    rfl
  have hw₄ : w₄ = w₃ := by
    cases hi : l.instantiate vs with
    | ok _ => rw [hi] at hcheck; cases hcheck; rfl
    | error _ => rw [hi] at hcheck; cases hcheck
  subst hw₃ hw₄
  cases hflow
  cases hpush
  refine ⟨⟨w₄.closures.size⟩, f₄.stack, rfl, ?_⟩
  show g.world.closures.size ≤ w₄.closures.size
  rw [hw.size]
  omega

/-- Only a branch makes control jump, and to its target. -/
theorem branch_of_jump {i : Instr} {s s₁ : Frame × World} {t : Nat} (h : MachineM.exec i ctx s = (.ok (.jump t), s₁)) :
    ∃ kind, i = .branch kind t := by
  have hplain : MachineM.exec i = (do MachineM.effect i; return .next) → ∃ kind, i = .branch kind t := by
    intro he
    rw [he] at h
    obtain ⟨_, _, _, hflow⟩ := Act.bind_eq_ok h
    cases hflow
  cases i with
  | branch kind target =>
    obtain ⟨b, r, -, hflow⟩ := Act.bind_eq_ok h
    cases b with
    | true => cases hflow; exact ⟨kind, rfl⟩
    | false => cases hflow
  | ret =>
    obtain ⟨_, _, _, hflow⟩ := Act.bind_eq_ok h
    cases hflow
  | _ => exact hplain rfl

/-- One step of private code in two runs: both go on, or both end. -/
inductive Moves (g : Ground) (M : Mirror) (u : CodeUnit) (w' : World) : Progress → Progress → Prop
  | running {M' : Mirror} {s s' : MachineState} (pc : s'.pc = s.pc) (grows : M.Grows w' M' s'.world)
    (worlds : g.Worlds M' s.world s'.world) (frames : g.Frames M' s.frame s'.frame) (ready : g.Ready u s.pc s.frame) :
    Moves g M u w' (.running s) (.running s')
  | finished {r r' : Except Stop Value} {w₁ w₁' : World} (h : g.Meet M w' (r, w₁) (r', w₁')) :
    Moves g M u w' (.finished r w₁) (.finished r' w₁')

theorem Alike.accepts_eq {v v' : Value} (h : g.Alike M v v') (e : Handler) (pc : Nat) :
    e.accepts pc v' = e.accepts pc v := by
  unfold Handler.accepts
  cases e.kind with
  | catches ty => simp only [h.hasType_eq ty]
  | «finally» => rfl

theorem forall₂_bottom {R : α → α → Prop} {xs ys : List α} (h : List.Forall₂ R xs ys) (n : Nat) :
    List.Forall₂ R (Frame.bottom xs n) (Frame.bottom ys n) := by
  rw [Frame.bottom, Frame.bottom, h.length_eq]
  exact List.forall₂_drop _ h

theorem Frames.unwound (hf : g.Frames M f f') (e : Handler) {v v' : Value} (hv : g.Alike M v v') :
    g.Frames M (f.unwound e v) (f'.unwound e v') := by
  unfold Frame.unwound
  cases e.kind with
  | catches ty =>
    exact ⟨hf.args, hf.locals, .cons hv (forall₂_bottom hf.stack _), forall₂_bottom hf.pending _⟩
  | «finally» =>
    exact ⟨hf.args, hf.locals, forall₂_bottom hf.stack _, .cons (.some hv) (forall₂_bottom hf.pending _)⟩

theorem moves_step {u : CodeUnit} (hu : u.Private stores) (hctx : g.Contexts M stores ctx ctx') {pc : Nat}
    (hw : g.Worlds M w w') (hf : g.Frames M f f') (hready : g.Ready u pc f) :
    g.Moves M u w' (u.step ctx ⟨pc, f, w⟩) (u.step ctx' ⟨pc, f', w'⟩) := by
  unfold CodeUnit.step
  dsimp only
  cases hi : u.instrs[pc]? with
  | none => exact .finished ⟨M, .refl M w', hw, .defect _⟩
  | some i =>
    obtain ⟨M₁, hgrow, hw₁, hf₁, hends⟩ := goes_exec hctx (hu.code pc i hi) hw hf fun e => hready (by rw [hi, e])
    have hnext : ∀ f₁ w₁, MachineM.exec i ctx (f, w) = (.ok .next, f₁, w₁) → g.Ready u (pc + 1) f₁ := by
      intro f₁ w₁ hx hcurry
      obtain ⟨q, l, hq, hl⟩ := hu.curry (pc + 1) hcurry
      obtain rfl : pc = q := by omega
      obtain rfl : i = .newClosure l := Option.some.inj (hi.symm.trans hl)
      exact top_of_newClosure hw hx
    have hjump : ∀ f₁ w₁ t, MachineM.exec i ctx (f, w) = (.ok (.jump t), f₁, w₁) → g.Ready u t f₁ := by
      intro f₁ w₁ t hx hcurry
      obtain ⟨kind, rfl⟩ := branch_of_jump hx
      exact absurd hcurry (hu.branches pc kind t hi)
    dsimp only
    rcases hx : MachineM.exec i ctx (f, w) with ⟨r, f₁, w₁⟩
    rcases hx' : MachineM.exec i ctx' (f', w') with ⟨r', f₁', w₁'⟩
    rw [hx] at hw₁ hf₁ hends
    rw [hx'] at hgrow hw₁ hf₁ hends
    cases hends with
    | ok h =>
      cases h with
      | next => exact .running rfl hgrow hw₁ hf₁ (hnext f₁ w₁ hx)
      | jump t => exact .running rfl hgrow hw₁ hf₁ (hjump f₁ w₁ t hx)
      | ret h => exact .finished ⟨M₁, hgrow, hw₁, .ok h⟩
    | @thrown v v' h =>
      simp only [h.accepts_eq]
      cases he : u.handlers.find? fun e => e.accepts pc v with
      | none => exact .finished ⟨M₁, hgrow, hw₁, .thrown h⟩
      | some e =>
        refine .running rfl hgrow hw₁ (hf₁.unwound e h) fun hcurry => ?_
        exact absurd hcurry (hu.handlers e (List.mem_of_find?_eq_some he))
    | defect d => exact .finished ⟨M₁, hgrow, hw₁, .defect d⟩
    | exhausted => exact .finished ⟨M₁, hgrow, hw₁, .exhausted⟩

/-! ## Runs and calls -/

theorem meet_run {u : CodeUnit} (hu : u.Private stores) :
    ∀ (fuel : Nat) {M : Mirror} {f f' : Frame} {w w' : World} {pc : Nat},
    g.Contexts M stores ctx ctx' → g.Worlds M w w' → g.Frames M f f' → g.Ready u pc f →
    g.Meet M w' (u.run ctx fuel ⟨pc, f, w⟩) (u.run ctx' fuel ⟨pc, f', w'⟩)
  | 0, M, _, _, _, w', _, _, hw, _, _ => ⟨M, .refl M w', hw, .exhausted⟩
  | fuel + 1, M, f, f', w, w', pc, hctx, hw, hf, hready => by
    have hstep := moves_step hu hctx hw hf hready
    rw [CodeUnit.run, CodeUnit.run]
    generalize u.step ctx ⟨pc, f, w⟩ = x at hstep
    generalize u.step ctx' ⟨pc, f', w'⟩ = x' at hstep
    cases hstep with
    | @running M₁ s s' hpc hgrow hw₁ hf₁ hready₁ =>
      obtain ⟨pc₁, f₁, w₁⟩ := s
      obtain ⟨pc₁', f₁', w₁'⟩ := s'
      obtain rfl : pc₁' = pc₁ := hpc
      obtain ⟨M₂, hgrow₂, rest⟩ := meet_run hu fuel (hctx.mono hgrow.mirror) hw₁ hf₁ hready₁
      exact ⟨M₂, hgrow.trans hgrow₂, rest⟩
    | finished h => exact h

theorem meet_refuse {m : Misuse} (hm : ∀ h h' : Heap, (Cause.misuse m).message h' = (Cause.misuse m).message h)
    (hw : g.Worlds M w w') : g.Meet M w' (CodeUnit.refuse m w) (CodeUnit.refuse m w') := by
  obtain ⟨M', hgrow, hw', hv⟩ := hw.raise (causes_refl hm)
  exact ⟨M', hgrow, hw', .thrown hv⟩

theorem Closures.isSome_eq (h : g.Closures M stores c c') : c'.isSome = c.isSome := by
  cases h <;> rfl

/-- The frame in which a call starts. -/
theorem Closures.frames (h : g.Closures M stores c c') (u : CodeUnit) {args args' : List Value}
    (hargs : List.Forall₂ (g.Alike M) args args') : g.Frames M (u.frame c args) (u.frame c' args') where
  args := by
    rw [CodeUnit.frame, CodeUnit.frame]
    cases h with
    | none => simpa using hargs
    | made hi => simpa using ⟨.closure hi, hargs⟩
    | old hc _ _ => simpa using ⟨.oldClosure (Array.getElem?_eq_some_iff.1 hc).1, hargs⟩
  locals := List.forall₂_same.2 fun v hv => by
    simp only [CodeUnit.frame, Array.toList_map, List.mem_map] at hv
    obtain ⟨ty, -, rfl⟩ := hv
    exact .known (ty.known_zero _)
  stack := .nil
  pending := .nil

/-- Calls of a unit of private code. -/
theorem meet_invoke {u : CodeUnit} (hu : u.Private stores) (hn : u.native = none) {lib : Library} {inv inv' : Invoker}
    (hinv : g.Invokes inv inv') (fuel : Nat) (hc : g.Closures M stores c c')
    {args args' : List Value} (hargs : List.Forall₂ (g.Alike M) args args') (hw : g.Worlds M w w') :
    g.Meet M w' (u.invoke lib inv fuel c args w) (u.invoke lib inv' fuel c' args' w') := by
  unfold CodeUnit.invoke
  rw [← hargs.length_eq, hc.isSome_eq, hn]
  split
  · exact meet_refuse (fun _ _ => by simp) hw
  · split
    · exact meet_refuse (fun _ _ => by simp) hw
    · have hready : g.Ready u 0 (u.frame c args) := fun hcurry => by
        obtain ⟨q, _, hq, _⟩ := hu.curry 0 hcurry
        omega
      have hctx : g.Contexts M stores ⟨lib, inv, c⟩ ⟨lib, inv', c'⟩ := ⟨hinv, hc⟩
      exact meet_run hu fuel hctx hw (hc.frames u hargs) hready

end Ground

/-- The ground of a program: units of private code are trusted. -/
def Program.ground (p : Program) (w : World) : Ground where
  world := w
  trusted ref := ∀ u, p.units[ref.id]? = some u → u.Private true ∧ u.native = none

/-- Functions of a program end alike in two runs. -/
theorem Program.invokes (p : Program) (w₀ : World) : ∀ fuel, (p.ground w₀).Invokes (p.invoke fuel) (p.invoke fuel)
  | 0, M, w, w', _, _, _, _, hw, _, _ => ⟨M, .refl M w', hw, .exhausted⟩
  | fuel + 1, M, w, w', f, f', args, args', hw, hf, hargs => by
    have hunit : ∀ {ref : UnitRef} {c c' : Option ClosureRef}, (p.ground w₀).trusted ref →
      (p.ground w₀).Closures M true c c' →
        (p.ground w₀).Meet M w' (p.invoke (fuel + 1) (.code ref c) args w)
          (p.invoke (fuel + 1) (.code ref c') args' w') := by
      intro ref c c' htrust hc
      rw [Program.invoke, Program.invoke]
      cases hu : p.units[ref.id]? with
      | none => exact ⟨M, .refl M w', hw, .defect _⟩
      | some u =>
        obtain ⟨hp, hn⟩ := htrust u hu
        exact Ground.meet_invoke hp hn (Program.invokes p w₀ fuel) fuel hc hargs hw
    cases hf with
    | known hv => cases hv.isData
    | bare hu => exact hunit hu .none
    | bound hu hi => exact hunit hu (.made hi)

end ExprCompiler
