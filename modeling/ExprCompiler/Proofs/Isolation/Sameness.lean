/-
Functions that compare equal. The comparison looks at the unit of a function and not at its closure. Of the functions
that calls of an artifact have returned, two of one unit whose closures hold the same data and code cannot be told apart
by a call: each does what it would do if no closure but its own existed. Where the closures differ, a call can tell.
-/
import ExprCompiler.Proofs.Isolation.Clients

namespace ExprCompiler

/-! ## What functions have captured -/

namespace Callable

def closure? : Callable → Option ClosureRef
  | .code _ c => c
  | _ => none

/-- What the function has captured. -/
def captured (w : World) (f : Callable) : Option Closure :=
  f.closure?.bind fun c => w.closures[c.id]?

theorem captured_code (w : World) (u : UnitRef) (c : ClosureRef) :
    (code u (some c)).captured w = w.closures[c.id]? := rfl

/-- What can be told about the captured values. -/
def contents (old : Nat) (w : World) (f : Callable) : List Seen :=
  (f.captured w).elim [] fun k => k.items.toList.map (Value.seen old w.heap)

theorem contents_eq {old : Nat} {w : World} {f : Callable} {k : Closure} (h : f.captured w = some k) :
    f.contents old w = k.items.toList.map (Value.seen old w.heap) := by
  rw [contents, h]
  rfl

/-- Objects and arrays are as they were, and so are all closures but that of the function. -/
structure Leaves (f : Callable) (w w' : World) : Prop where
  heap : w.heap.Keeps w'.heap
  others : ∀ i < w.closures.size, f.closure? ≠ some ⟨i⟩ → w'.closures[i]? = w.closures[i]?

end Callable

namespace Value

/-- The value refers to a closure. -/
def isBound : Value → Bool
  | .func (.code _ (some _)) | .closure _ => true
  | _ => false

variable {h h' : Heap} {v : Value}

theorem Within.mono {n m : Nat} (hv : v.Within h n) (hk : h.Keeps h') (hle : n ≤ m) : v.Within h' m := by
  induction hv generalizing m with
  | leaf hv => exact .leaf hv
  | @object n o ho _ ih =>
    obtain ⟨m, rfl⟩ := Nat.exists_eq_succ_of_ne_zero (show m ≠ 0 by omega)
    exact .object (Nat.lt_of_lt_of_le ho hk.size_le) fun v hv => ih v (hk.fields ho ▸ hv) (by omega)
  | @array n a _ ih =>
    obtain ⟨m, rfl⟩ := Nat.exists_eq_succ_of_ne_zero (show m ≠ 0 by omega)
    exact .array fun v hv => ih v (hk.items a ▸ hv) (by omega)
  | struct _ ih => exact .struct fun v hv => ih v hv hle

theorem Known.mono (hv : v.Known h) (hk : h.Keeps h') : v.Known h' :=
  ⟨hv.isData, hv.within.mono hk (Nat.add_le_add hk.size_le (by rw [hk.arrays]))⟩

end Value

theorem Ground.Worlds.seen_eq {g : Ground} {M : Mirror} {w w' : World} (hw : g.Worlds M w w') {xs ys : List Value}
    (h : List.Forall₂ (g.Alike M) xs ys) :
    ys.map (Value.seen g.world.heap.objects.size w'.heap) = xs.map (Value.seen g.world.heap.objects.size w.heap) := by
  induction h with
  | nil => rfl
  | cons hx _ ih => rw [List.map_cons, List.map_cons, hx.seen_eq hw, ih]

/-! ## Functions that calls return -/

namespace Program

variable {p : Program} {a : Artifact} {w₀ w : World} {M : Mirror}

/-- Values that calls of the artifact, and of functions returned before, have returned, and the world after the calls.
-/
inductive Returned (p : Program) (a : Artifact) (w₀ : World) : List Value → World → Prop
  | start : Returned p a w₀ [] w₀
  | call {vs : List Value} {w : World} (h : Returned p a w₀ vs w) (fuel : Nat) (call : ClientCall)
      (hargs : ∀ v ∈ call.args, v.Known w₀.heap) :
    Returned p a w₀ (vs ++ [kept (p.answer fuel a call vs w).1]) (p.answer fuel a call vs w).2

theorem Returned.worlds {vs : List Value} (h : p.Returned a w₀ vs w) (hs : p.Serves a w₀) :
    ∃ M, (p.ground w₀).Worlds M w w ∧ List.Forall₂ ((p.ground w₀).Alike M) vs vs := by
  induction h with
  | start => exact ⟨{}, (p.ground w₀).worlds_start, .nil⟩
  | call _ fuel call hargs ih =>
    obtain ⟨M, hw, hvs⟩ := ih
    obtain ⟨M', hgrow, hw', hends⟩ := meet_answer fuel hs hargs hvs hw
    exact ⟨M', hw', List.rel_append (Ground.alikes_mono hgrow.mirror hvs) (.cons hends.kept .nil)⟩

/-- The ground on which a function is called: no closure is common to two runs. -/
def bareGround (p : Program) (w : World) : Ground :=
  p.ground { w with closures := #[] }

/-- A returned value that refers to no closure belongs to the ground. -/
theorem alike_bareGround (hw : (p.ground w₀).Worlds M w w) {v : Value} (hv : (p.ground w₀).Alike M v v)
    (hb : v.isBound = false) : (p.bareGround w).Alike {} v v := by
  generalize hv' : v = v' at hv
  cases hv with
  | known hk => exact .known (hk.mono hw.heap)
  | @object i _ cls hi =>
    obtain ⟨s, hs, -⟩ := hw.fields i _ hi
    obtain ⟨hlt, -⟩ := Array.getElem?_eq_some_iff.1 hs
    refine .known ⟨rfl, ?_⟩
    have hwithin : (Value.object ⟨(p.ground w₀).world.heap.objects.size + i, cls⟩).Within w.heap 1 := by
      refine .object hlt fun v hv => ?_
      rw [Heap.fields, hs] at hv
      obtain rfl : v = .str s := by simpa using hv
      exact .leaf (.inl rfl)
    exact hwithin.mono (.refl _) (by simp only [bareGround, ground]; omega)
  | bare hu => exact .bare hu
  | code hu => exact .code hu
  | bound _ _ | closure _ | oldClosure _ => subst hv'; cases hb

/-- The closure, if there is one, holds nothing but what belongs to the ground. -/
def Grounded (p : Program) (w : World) (c : Option ClosureRef) : Prop :=
  ∀ r, c = some r → ∃ k, w.closures[r.id]? = some k ∧ ∀ v ∈ k.items.toList, (p.bareGround w).Alike {} v v

/-- A returned function runs private code, and its closure is one that the calls have made. -/
theorem grounded_of_alike (hw : (p.ground w₀).Worlds M w w) {f : Callable}
    (hf : (p.ground w₀).Alike M (.func f) (.func f))
    (hbound : ∀ k, f.captured w = some k → ∀ v ∈ k.items.toList, v.isBound = false) :
    ∃ u c, f = .code u c ∧ (p.bareGround w).trusted u ∧ p.Grounded w c := by
  generalize hf' : Value.func f = v at hf
  cases hf with
  | known hv => subst hf'; cases hv.isData
  | bare hu => cases hf'; exact ⟨_, none, rfl, hu, fun r hr => by cases hr⟩
  | @bound u i _ hu hi =>
    cases hf'
    refine ⟨u, _, rfl, hu, fun r hr => ?_⟩
    cases hr
    obtain ⟨k, k', hk, hk', -, hitems⟩ := hw.items i _ hi
    obtain rfl : k = k' := Option.some.inj (hk.symm.trans hk')
    exact ⟨k, hk, fun v hv => alike_bareGround hw (List.forall₂_same.1 hitems v hv) (hbound k hk v hv)⟩
  | _ => cases hf'

/-! ## Calls -/

/-- Calls a unit in a world that has no closure but the one given. -/
def invokeAlone (p : Program) (fuel : Nat) (u : UnitRef) (k : Option Closure) (args : List Value) (w : World) :
    Except Stop Value × World :=
  p.invoke fuel (.code u (k.map fun _ => ⟨0⟩)) args { w with closures := k.toList.toArray }

variable {u : UnitRef} {c : Option ClosureRef}

theorem Grounded.worlds (hc : p.Grounded w c) : (p.bareGround w).Worlds ⟨(c.map ClosureRef.id).toList, []⟩
    { w with closures := ((Callable.code u c).captured w).toList.toArray } w where
  size := by
    cases c with
    | none => rfl
    | some r =>
      obtain ⟨k, hk, -⟩ := hc r rfl
      rw [Callable.captured_code, hk]
      rfl
  objectSize := rfl
  heap := .refl _
  heap' := .refl _
  old i hi := absurd hi (Nat.not_lt_zero i)
  old' i hi := absurd hi (Nat.not_lt_zero i)
  image _ _ := Nat.zero_le _
  objectImage := by simp
  nodup := by cases c <;> simp
  objectNodup := List.nodup_nil
  items i i' hi := by
    cases c with
    | none => cases hi
    | some r =>
      obtain ⟨k, hk, hitems⟩ := hc r rfl
      obtain ⟨rfl, rfl⟩ : i = 0 ∧ r.id = i' := by
        cases i with
        | zero => exact ⟨rfl, Option.some.inj hi⟩
        | succ i => cases hi
      refine ⟨k, k, ?_, hk, rfl, List.forall₂_same.2 fun v hv => (hitems v hv).mono ⟨List.nil_prefix, List.nil_prefix⟩⟩
      rw [Callable.captured_code, hk]
      rfl
  fields := by simp

/-- A function does what it would do if no closure but its own existed, and leaves the other closures alone. -/
theorem Grounded.invoke_eq (hc : p.Grounded w c) (hu : (p.bareGround w).trusted u) {args : List Value}
    (hargs : ∀ v ∈ args, v.Known w.heap) (fuel : Nat) :
    let f : Callable := .code u c
    let old := w.heap.objects.size
    let r := p.invoke fuel f args w
    let k := f.captured w
    let alone := p.invokeAlone fuel u k args w
    Outcome.of old r.2.heap r.1 = .of old alone.2.heap alone.1 ∧
      f.contents old r.2 = (Callable.code u (k.map fun _ => ⟨0⟩)).contents old alone.2 ∧ f.Leaves w r.2 := by
  intro f old r k alone
  have hf : (p.bareGround w).Alike ⟨(c.map ClosureRef.id).toList, []⟩
      (.func (.code u (k.map fun _ => ⟨0⟩))) (.func f) := by
    cases c with
    | none => exact .bare hu
    | some c =>
      obtain ⟨k', hk, -⟩ := hc c rfl
      simp only [k, f, Callable.captured_code, hk]
      exact .bound (i := 0) hu rfl
  obtain ⟨M, hgrow, hw, hends⟩ :=
    p.invokes _ fuel hc.worlds hf (List.forall₂_same.2 fun v hv => .known (hargs v hv))
  refine ⟨hends.outcome_eq hw, ?_, hgrow.heap, fun i hi hne => hgrow.others i hi fun hmem => hne ?_⟩
  · cases c with
    | none => rfl
    | some c =>
      obtain ⟨k', hk, -⟩ := hc c rfl
      obtain ⟨k₁, k₂, hk₁, hk₂, -, hitems⟩ := hw.items 0 c.id (Mirror.getElem?_of_prefix hgrow.mirror.closures rfl)
      have halone : (Callable.code u (k.map fun _ => ⟨0⟩)).captured alone.2 = some k₁ := by
        simp only [k, f, Callable.captured_code, hk]
        exact hk₁
      rw [Callable.contents_eq halone, Callable.contents_eq (show f.captured r.2 = some k₂ from hk₂)]
      exact hw.seen_eq hitems
  · obtain ⟨c, rfl, rfl⟩ : ∃ r, c = some r ∧ r.id = i := by simpa using hmem
    rfl

end Program

namespace CompileM

variable {c : Compiler} {s s' : Session} {a : Artifact}

/-- Equal functions of one private lambda are interchangeable if they have captured the same, and no function that is
bound to a closure. If a lambda of private nodes is compiled without native code, then of the functions that calls have
returned, two of this kind end every call alike: the outcomes and what they leave in their closures cannot be told
apart, and they change nothing else. -/
theorem invoke_eq_of_same {t : Tree} (ht : t.Private c.operators) (hn : c.settings.nativeEnabled = false)
    (h : compileLambda t c s = (.ok a, s')) (lib : Library) {vs : List Value} {w : World}
    (hr : (⟨s'.units, lib⟩ : Program).Returned a s'.world vs w) {f g : Callable} (hf : .func f ∈ vs) (hg : .func g ∈ vs)
    (hsame : (Value.func f).same (.func g) = true) (hcaptured : g.captured w = f.captured w)
    (hbound : ∀ k, f.captured w = some k → ∀ v ∈ k.items.toList, v.isBound = false) {args : List Value}
    (hargs : ∀ v ∈ args, v.Known w.heap) (fuel : Nat) :
    let p : Program := ⟨s'.units, lib⟩
    let old := w.heap.objects.size
    let r := p.invoke fuel f args w
    let r' := p.invoke fuel g args w
    Outcome.of old r'.2.heap r'.1 = .of old r.2.heap r.1 ∧ g.contents old r'.2 = f.contents old r.2 ∧
      f.Leaves w r.2 ∧ g.Leaves w r'.2 := by
  intro p old r r'
  obtain ⟨M, hw, hvs⟩ := hr.worlds (compileLambda_serves ht hn h lib)
  have hall := List.forall₂_same.1 hvs
  obtain ⟨u, c, rfl, hu, hc⟩ := Program.grounded_of_alike hw (hall _ hf) hbound
  obtain ⟨u', c', rfl, -, hc'⟩ := Program.grounded_of_alike hw (hall _ hg) (hcaptured ▸ hbound)
  obtain rfl : u = u' := by simpa [Value.same, Callable.same] using hsame
  obtain ⟨hout, hcon, hleaves⟩ := hc.invoke_eq hu hargs fuel
  obtain ⟨hout', hcon', hleaves'⟩ := hc'.invoke_eq hu hargs fuel
  rw [hcaptured] at hout' hcon'
  exact ⟨hout'.trans hout.symm, hcon'.trans hcon.symm, hleaves, hleaves'⟩

/-- Two functions of the counter, the first made for `m` and the second for `n`, and the world after that. -/
def counters (lib : Library) (m n : Int) : Option (Artifact × Session × World × Callable × Callable) :=
  match compileLambda (counter ⟨0, "x", .int .i32⟩) ⟨{ nativeEnabled := false }, []⟩ {} with
  | (.ok a, s) =>
    let p : Program := ⟨s.units, lib⟩
    let r := p.answer 20 a ⟨0, none, [.i32 m]⟩ [] s.world
    let r' := p.answer 20 a ⟨0, none, [.i32 n]⟩ [Program.kept r.1] r.2
    match Program.kept r.1, Program.kept r'.1 with
    | .func f, .func g => some (a, s, r'.2, f, g)
    | _, _ => none
  | (.error _, _) => none

theorem counters_eq_some {lib : Library} {m n : Int} {s : Session} {w : World} {f g : Callable}
    (h : counters lib m n = some (a, s, w, f, g)) :
    compileLambda (counter ⟨0, "x", .int .i32⟩) ⟨{ nativeEnabled := false }, []⟩ {} = (.ok a, s) ∧
      (⟨s.units, lib⟩ : Program).Returned a s.world [.func f, .func g] w := by
  have hargs : ∀ (h : Heap) (n : Int), ∀ v ∈ [Value.i32 n], v.Known h := fun h n v hv => by
    obtain rfl : v = .i32 n := by simpa using hv
    exact Value.known_of_isImmediate rfl
  unfold counters at h
  split at h
  · next a' s' hx =>
    have hstart : Program.Returned ⟨s'.units, lib⟩ a' s'.world [] s'.world := .start
    have hr := (hstart.call 20 ⟨0, none, [.i32 m]⟩ (hargs _ m)).call 20 ⟨0, none, [.i32 n]⟩ (hargs _ n)
    dsimp only at h
    split at h
    · next f' g' hf hg =>
      cases h
      refine ⟨hx, ?_⟩
      rw [← hg, ← hf]
      exact hr
    · cases h
  · cases h

/-- Two functions are the same, and have captured the same number in closures of their own. -/
def countAlike (w : World) (f g : Callable) : Bool :=
  f.same g && f.closure? != g.closure? && match f.captured w, g.captured w with
    | some ⟨.fixed, ⟨[.int i]⟩⟩, some ⟨.fixed, ⟨[.int j]⟩⟩ => i == j
    | _, _ => false

theorem invoke_eq_of_same_counters :
    let lib : Library := ⟨[], fun _ call h => .finish call.receiver (.ok .null) h⟩
    ∃ a s w f g, counters lib 10 10 = some (a, s, w, f, g) ∧ f.closure? ≠ g.closure? ∧
      let r := Program.invoke ⟨s.units, lib⟩ 20 f [] w
      let r' := Program.invoke ⟨s.units, lib⟩ 20 g [] w
      Outcome.of w.heap.objects.size r'.2.heap r'.1 = .of w.heap.objects.size r.2.heap r.1 := by
  intro lib
  have hrun : (counters lib 10 10).any (fun r => countAlike r.2.2.1 r.2.2.2.1 r.2.2.2.2) = true := by decide +kernel
  rcases hx : counters lib 10 10 with _ | ⟨a, s, w, f, g⟩ <;> rw [hx] at hrun
  · cases hrun
  · obtain ⟨hcompile, hreturned⟩ := counters_eq_some hx
    simp only [Option.any_some, countAlike, Bool.and_eq_true, bne_iff_ne, ne_eq] at hrun
    obtain ⟨⟨hsame, hne⟩, hcaptured⟩ := hrun
    split at hcaptured
    · next i j hf hg =>
      obtain rfl : i = j := by simpa using hcaptured
      refine ⟨a, s, w, f, g, rfl, hne, ?_⟩
      refine (invoke_eq_of_same counter_private rfl hcompile lib hreturned (by simp) (by simp) ?_ (hg.trans hf.symm) ?_
        (by simp) 20).1
      · rw [Value.same]
        exact hsame
      · intro k hk v hv
        obtain rfl := Option.some.inj (hf.symm.trans hk)
        obtain rfl : v = .int i := by simpa using hv
        rfl
    · cases hcaptured

/-- Functions of the counter compare equal whatever they have captured. -/
theorem invoke_ne_of_same_counters :
    let lib : Library := ⟨[], fun _ call h => .finish call.receiver (.ok .null) h⟩
    ∃ a s w f g, counters lib 10 20 = some (a, s, w, f, g) ∧ (Value.func f).same (.func g) = true ∧
      (Program.kept (Program.invoke ⟨s.units, lib⟩ 20 f [] w).1).i32? = some 11 ∧
      (Program.kept (Program.invoke ⟨s.units, lib⟩ 20 g [] w).1).i32? = some 21 := by
  intro lib
  have hrun : (match counters lib 10 20 with
      | some (_, s, w, f, g) => (Value.func f).same (.func g) &&
        (Program.kept (Program.invoke ⟨s.units, lib⟩ 20 f [] w).1).i32? == some 11 &&
        (Program.kept (Program.invoke ⟨s.units, lib⟩ 20 g [] w).1).i32? == some 21
      | none => false) = true := by
    decide +kernel
  rcases hx : counters lib 10 20 with _ | ⟨a, s, w, f, g⟩ <;> rw [hx] at hrun
  · cases hrun
  · simp only [Bool.and_eq_true, beq_iff_eq] at hrun
    obtain ⟨⟨hsame, hf⟩, hg⟩ := hrun
    exact ⟨a, s, w, f, g, rfl, hsame, hf, hg⟩

end CompileM

end ExprCompiler
