/-
Clients of one artifact. Each calls the artifact and the functions that its own calls have returned; the calls of all
clients come in any order. If the artifact was compiled from a tree of private nodes, a client sees the same as if the
others had never called: the closures that a client's functions work on are never those of another.
-/
import ExprCompiler.Proofs.Isolation.Machine

namespace ExprCompiler

/-! ## Calls and what is seen of them -/

/-- A call by a client: of the artifact, or of what an earlier call by the same client has returned. -/
structure ClientCall where
  client : Nat
  target : Option Nat
  args : List Value

/-- What a client can tell about a value. Data that was there before the first call is seen as it is, an object made
since by its class and contents, a function by its unit. -/
inductive Seen
  | data (v : Value)
  | object (cls : Class) (fields : Array Value)
  | function (unit : UnitRef) (bound : Bool)
  | code (unit : UnitRef)
  | other

/-- `old` is the number of objects that were there before the first call. -/
def Value.seen (old : Nat) (h : Heap) : Value → Seen
  | .object o => if o.id < old then .data (.object o) else .object o.cls (h.fields o)
  | .func (.code unit c) => .function unit c.isSome
  | .code unit => .code unit
  | .func _ | .closure _ | .addr _ => .other
  | v => .data v

/-- How a call has ended for the client. -/
inductive Outcome
  | returned (s : Seen)
  | threw (s : Seen)
  | defect (d : Defect)
  | exhausted

def Outcome.of (old : Nat) (h : Heap) : Except Stop Value → Outcome
  | .ok v => .returned (v.seen old h)
  | .error (.thrown v) => .threw (v.seen old h)
  | .error (.defect d) => .defect d
  | .error .exhausted => .exhausted

namespace Program

/-- Makes a call. `returned` is what the client's earlier calls have returned, null for those that did not. -/
def answer (p : Program) (fuel : Nat) (a : Artifact) (call : ClientCall) (returned : List Value) (w : World) :
    Except Stop Value × World :=
  match call.target with
  | none => p.invokeArtifact fuel a call.args w
  | some i => p.invokeValue fuel (returned[i]?.getD .null) call.args w

/-- The value that a call has returned. -/
def kept : Except Stop Value → Value
  | .ok v => v
  | .error _ => .null

/-- Makes calls one after the other and lists how they end, each with its client. -/
def serve (p : Program) (fuel : Nat) (a : Artifact) (old : Nat) :
    List ClientCall → (Nat → List Value) → World → List (Nat × Outcome)
  | [], _, _ => []
  | call :: calls, returned, w =>
    let (r, w) := p.answer fuel a call (returned call.client) w
    (call.client, .of old w.heap r) ::
      p.serve fuel a old calls (Function.update returned call.client (returned call.client ++ [kept r])) w

end Program

/-! ## Related calls -/

namespace Ground

variable {g : Ground} {M M' N : Mirror} {w w' w'' v : World}

theorem worlds_start (g : Ground) : g.Worlds {} g.world g.world where
  size := rfl
  objectSize := rfl
  heap := .refl _
  heap' := .refl _
  old _ _ := rfl
  old' _ _ := rfl
  image := by simp
  objectImage := by simp
  nodup := List.nodup_nil
  objectNodup := List.nodup_nil
  items := by simp
  fields := by simp

/-- What two runs show of related values. -/
theorem Alike.seen_eq {a a' : Value} (h : g.Alike M a a') (hw : g.Worlds M w w') :
    a'.seen g.world.heap.objects.size w'.heap = a.seen g.world.heap.objects.size w.heap := by
  cases h with
  | known hv =>
    cases a with
    | object o => simp only [Value.seen, if_pos hv.object_lt]
    | func f => cases hv.isData
    | _ => rfl
  | @object i i' cls hi =>
    obtain ⟨s, hs, hs'⟩ := hw.fields i i' hi
    have hle := hw.objectImage i' (List.mem_of_getElem? hi)
    simp only [Value.seen, if_neg (Nat.not_lt.2 hle), if_neg (Nat.not_lt.2 (Nat.le_add_right _ i)),
      Heap.fields, hs, hs']
  | _ => rfl

theorem Ends.outcome_eq {r r' : Except Stop Value} (h : g.Ends M (g.Alike M) r r') (hw : g.Worlds M w w') :
    Outcome.of g.world.heap.objects.size w'.heap r' = Outcome.of g.world.heap.objects.size w.heap r := by
  cases h with
  | ok h | thrown h => simp only [Outcome.of, h.seen_eq hw]
  | defect d | exhausted => rfl

theorem Ends.kept {r r' : Except Stop Value} (h : g.Ends M (g.Alike M) r r') :
    g.Alike M (Program.kept r) (Program.kept r') := by
  cases h with
  | ok h => exact h
  | _ => exact alike_of_isImmediate rfl

/-- The closures of two mirrors of one run have nothing in common. -/
def Apart (M N : Mirror) : Prop :=
  ∀ c ∈ M.closures, c ∉ N.closures

theorem Apart.symm (h : Apart M N) : Apart N M :=
  fun c hN hM => h c hM hN

/-- What a run does leaves everything that belongs to others as it was. -/
theorem Worlds.of_grows (hN : g.Worlds N v w') (hM : g.Worlds M w w') (hg : M.Grows w' M' w'') (ha : Apart M N) :
    g.Worlds N v w'' ∧ Apart M' N := by
  have hlt : ∀ c < g.world.closures.size, c < w'.closures.size := fun c hc => by
    have := hN.old' c hc
    rw [Array.getElem?_eq_getElem hc] at this
    exact (Array.getElem?_eq_some_iff.1 this).1
  refine ⟨{ hN with
      heap' := hN.heap'.trans hg.heap
      old' := fun c hc => ?_
      items := fun i i' hi => ?_
      fields := fun i i' hi => ?_ }, fun c hc hcN => ?_⟩
  · have hnot : c ∉ M.closures := fun hmem => Nat.not_lt.2 (hM.image c hmem) hc
    rw [hg.others c (hlt c hc) hnot, hN.old' c hc]
  · obtain ⟨c, c', h, h', rest⟩ := hN.items i i' hi
    have hmem := List.mem_of_getElem? hi
    exact ⟨c, c', h, (hg.others i' (hN.image_lt i' hmem) fun hM => ha i' hM hmem).trans h', rest⟩
  · obtain ⟨s, h, h'⟩ := hN.fields i i' hi
    exact ⟨s, h, (hg.heap.objects i' (hN.objectImage_lt i' (List.mem_of_getElem? hi))).trans h'⟩
  · rcases hg.fresh c hc with hc | hc
    · exact ha c hc hcN
    · exact Nat.not_lt.2 hc (hN.image_lt c hcN)

end Ground

/-! ## Artifacts -/

/-- A root that assigns no item of its closure, which holds code alone. -/
structure Program.Serves (p : Program) (a : Artifact) (w₀ : World) : Prop where
  code : ∃ u, p.units[a.unit.id]? = some u ∧ u.Private false ∧ u.native = none
  closure : match a with
    | .bare _ => True
    | .bound _ c => ∃ k, w₀.closures[c.id]? = some k ∧ ∀ v ∈ k.items.toList, (p.ground w₀).Alike {} v v
    | .curryable _ _ => False

namespace Program

variable {p : Program} {a : Artifact} {w₀ w w' : World} {M : Mirror} (fuel : Nat)

theorem meet_invokeArtifact (h : p.Serves a w₀) {args : List Value} (hargs : ∀ v ∈ args, v.Known w₀.heap)
    (hw : (p.ground w₀).Worlds M w w') :
    (p.ground w₀).Meet M w' (p.invokeArtifact fuel a args w) (p.invokeArtifact fuel a args w') := by
  have hsame : List.Forall₂ ((p.ground w₀).Alike M) args args := List.forall₂_same.2 fun v hv => .known (hargs v hv)
  obtain ⟨u, hu, hp, hn⟩ := h.code
  have hcall : ∀ c : Option ClosureRef, (p.ground w₀).Closures M false c c →
      (p.ground w₀).Meet M w' (p.invoke fuel (.code a.unit c) args w) (p.invoke fuel (.code a.unit c) args w') := by
    intro c hc
    cases fuel with
    | zero => exact ⟨M, .refl M w', hw, .exhausted⟩
    | succ fuel =>
      rw [invoke, invoke, hu]
      exact Ground.meet_invoke hp hn (p.invokes w₀ fuel) fuel hc hsame hw
  have hclosure := h.closure
  cases a with
  | bare ref => exact hcall none .none
  | bound ref c =>
    obtain ⟨k, hk, hitems⟩ := hclosure
    exact hcall (some c) (.old hk hitems rfl)
  | curryable ref l => exact hclosure.elim

theorem meet_invokeValue {f f' : Value} (hf : (p.ground w₀).Alike M f f') {args : List Value}
    (hargs : ∀ v ∈ args, v.Known w₀.heap) (hw : (p.ground w₀).Worlds M w w') :
    (p.ground w₀).Meet M w' (p.invokeValue fuel f args w) (p.invokeValue fuel f' args w') := by
  unfold invokeValue
  rcases hf.asCallable with ⟨c, c', hc, hc', hcc⟩ | ⟨c, c', hc, hc', hcc⟩
  · rw [hc, hc']
    exact p.invokes w₀ fuel hw hcc (List.forall₂_same.2 fun v hv => .known (hargs v hv))
  · rw [hc, hc']
    obtain ⟨M', hgrow, hw', hv⟩ := hw.raise hcc
    exact ⟨M', hgrow, hw', .thrown hv⟩

theorem meet_answer (h : p.Serves a w₀) {call : ClientCall} (hargs : ∀ v ∈ call.args, v.Known w₀.heap)
    {returned returned' : List Value} (hr : List.Forall₂ ((p.ground w₀).Alike M) returned returned')
    (hw : (p.ground w₀).Worlds M w w') :
    (p.ground w₀).Meet M w' (p.answer fuel a call returned w) (p.answer fuel a call returned' w') := by
  unfold answer
  cases call.target with
  | none => exact meet_invokeArtifact fuel h hargs hw
  | some i =>
    refine meet_invokeValue fuel ?_ hargs hw
    rcases Ground.forall₂_getElem? hr i with ⟨hx, hx'⟩ | ⟨x, x', hx, hx', hxx⟩
    · rw [hx, hx']
      exact Ground.alike_of_isImmediate rfl
    · rw [hx, hx']
      exact hxx

/-- The calls of one client, alone on the left, among those of others on the right. -/
theorem serve_among (h : p.Serves a w₀) (k : Nat) :
    ∀ (calls : List ClientCall), (∀ call ∈ calls, ∀ v ∈ call.args, v.Known w₀.heap) →
      ∀ (own others returned : Nat → List Value) {M N : Mirror} {w v w' : World},
      (p.ground w₀).Worlds M w w' → (p.ground w₀).Worlds N v w' → Ground.Apart M N →
      List.Forall₂ ((p.ground w₀).Alike M) (own k) (returned k) →
      (∀ j, j ≠ k → List.Forall₂ ((p.ground w₀).Alike N) (others j) (returned j)) →
      (p.serve fuel a w₀.heap.objects.size calls returned w').filter (fun x => x.1 == k) =
        p.serve fuel a w₀.heap.objects.size (calls.filter (fun call => call.client == k)) own w
  | [], _, _, _, _, _, _, _, _, _, _, _, _, _, _ => rfl
  | call :: calls, hargs, own, others, returned, M, N, w, v, w', hw, hv, hapart, hown, hothers => by
    have hargs₁ := hargs call (by simp)
    have hargs₂ : ∀ call ∈ calls, ∀ v ∈ call.args, v.Known w₀.heap := fun c hc => hargs c (by simp [hc])
    have hlater : ∀ {K : Mirror} {xs xs' : List Value} {r r' : Except Stop Value},
        List.Forall₂ ((p.ground w₀).Alike K) xs xs' → (p.ground w₀).Ends K ((p.ground w₀).Alike K) r r' →
        List.Forall₂ ((p.ground w₀).Alike K) (xs ++ [kept r]) (xs' ++ [kept r']) :=
      fun hxs hr => List.rel_append hxs (.cons hr.kept .nil)
    rw [serve]
    by_cases hk : call.client = k
    · -- The client's own call takes both of its runs on.
      subst hk
      obtain ⟨M', hgrow, hw₁, hends⟩ := meet_answer fuel h hargs₁ hown hw
      obtain ⟨hv₁, hapart₁⟩ := hv.of_grows hw hgrow hapart
      rw [List.filter_cons_of_pos (by simp), List.filter_cons_of_pos (by simp), serve]
      refine congrArg₂ _ (congrArg (Prod.mk call.client) (hends.outcome_eq hw₁)) ?_
      refine serve_among h call.client calls hargs₂ _ others _ hw₁ hv₁ hapart₁ ?_ fun j hj => ?_
      · rw [Function.update_self, Function.update_self]
        exact hlater (Ground.alikes_mono hgrow.mirror hown) hends
      · rw [Function.update_of_ne hj]
        exact hothers j hj
    · -- A call by another takes the others' run on; the client's world stays as it is.
      obtain ⟨N', hgrow, hv₁, hends⟩ := meet_answer fuel h hargs₁ (hothers call.client hk) hv
      obtain ⟨hw₁, hapart₁⟩ := hw.of_grows hv hgrow hapart.symm
      rw [List.filter_cons_of_neg (by simpa using hk), List.filter_cons_of_neg (by simpa using hk)]
      refine serve_among h k calls hargs₂ own (Function.update others call.client
        (others call.client ++ [kept (p.answer fuel a call (others call.client) v).1])) _ hw₁ hv₁ hapart₁.symm ?_
          fun j hj => ?_
      · rw [Function.update_of_ne (Ne.symm hk)]
        exact hown
      · by_cases hj' : j = call.client
        · subst hj'
          rw [Function.update_self, Function.update_self]
          exact hlater (Ground.alikes_mono hgrow.mirror (hothers _ hj)) hends
        · rw [Function.update_of_ne hj', Function.update_of_ne hj']
          exact Ground.alikes_mono hgrow.mirror (hothers j hj)

/-- A client sees the same without the others. -/
theorem serve_filter (h : p.Serves a w₀) (k : Nat) {calls : List ClientCall}
    (hargs : ∀ call ∈ calls, ∀ v ∈ call.args, v.Known w₀.heap) :
    (p.serve fuel a w₀.heap.objects.size calls (fun _ => []) w₀).filter (fun x => x.1 == k) =
      p.serve fuel a w₀.heap.objects.size (calls.filter fun call => call.client == k) (fun _ => []) w₀ := by
  have hw := (p.ground w₀).worlds_start
  exact serve_among fuel h k calls hargs _ (fun _ => []) _ hw hw (by simp [Ground.Apart]) .nil fun _ _ => .nil

end Program

/-! ## Compiled lambdas -/

section

variable {c : Compiler} {units : Array CodeUnit} {lib : Library} {root : Tree}

/-- The unit of a lambda of private nodes. -/
theorem CodeUnit.LinkedFor.private {stores : Bool} {ref : UnitRef} {name : String} {body : Tree} {params : List Param}
    {ret : Ty}
    {capture : Capture} (h : LinkedFor c units ref name body params ret capture) (hb : body.Private c.operators)
    (hn : c.settings.nativeEnabled = false) (hs : stores = false → capture.params = []) :
    ∃ u, units[ref.id]? = some u ∧ u.Private stores ∧ u.native = none := by
  obtain ⟨u, native, hcode, hu, hnative⟩ := h.code
  have hp := Emit.unit_private hb hs hcode
  exact ⟨_, hu, ⟨hp.code, hp.curry, hp.branches, hp.handlers⟩, hnative hn⟩

/-- The item of a closure for a lambda of private nodes is code that may be run. -/
theorem NestedOf.Compiled.alike {n : Nested} (h : n.Compiled c root units) (hr : root.Private c.operators)
    (hn : c.settings.nativeEnabled = false) (w : World) :
    ((⟨units, lib⟩ : Program).ground w).Alike {} n.artifact.itemValue n.artifact.itemValue := by
  cases h with
  | @record id ty params body name sig capture ref node signature captured linked constants nested =>
    have hbody : body.Private c.operators := (Tree.All.inside hr node).children body (by simp)
    have htrust : ((⟨units, lib⟩ : Program).ground w).trusted ref := by
      intro u hu
      obtain ⟨u', hu', hp, hn'⟩ := linked.private hbody hn fun (h : true = false) => by cases h
      obtain rfl : u = u' := Option.some.inj (hu.symm.trans hu')
      exact ⟨hp, hn'⟩
    cases capture.layout? c.settings.fixedFieldLimit with
    | none => exact .bare htrust
    | some l => exact .code htrust

end

namespace CompileM

variable {c : Compiler} {s s' : Session} {a : Artifact}

/-- A root compiled from private nodes captures nothing but code. -/
theorem root_serves {name : String} {t : Tree} {params : List Param} {requested : Requested}
    (ht : t.Private c.operators) (hn : c.settings.nativeEnabled = false)
    (h : root name t params requested c s = (.ok a, s')) (lib : Library) :
    (⟨s'.units, lib⟩ : Program).Serves a s'.world := by
  obtain ⟨ret, capture, -, hroot⟩ := root_rooted h
  refine ⟨hroot.linked.private ht hn fun _ => hroot.closed, ?_⟩
  have hconstants : capture.constants = [] := by
    refine List.eq_nil_iff_forall_not_mem.2 fun r hr => ?_
    obtain ⟨hoccurs, hnot⟩ := hroot.compiled.constants r hr
    have hprivate : r.value.isImmediate = true := Tree.All.of_occurs ht hoccurs
    rw [hnot] at hprivate
    cases hprivate
  have hholds := hroot.holds
  generalize capture.layout? c.settings.fixedFieldLimit = layout at hholds
  cases layout with
  | none =>
    cases a with
    | bare _ => trivial
    | bound _ _ | curryable _ _ => exact hholds.elim
  | some l =>
    cases a with
    | bare _ | curryable _ _ => exact hholds.elim
    | bound ref k =>
      obtain ⟨closure, hm, hk⟩ := hholds
      refine ⟨closure, hk, fun v hv => ?_⟩
      rw [items_of_materialize hm, hconstants, List.map_nil, List.nil_append] at hv
      obtain ⟨n, hmem, rfl⟩ := List.mem_map.1 hv
      exact (hroot.compiled.nested n hmem).alike ht hn s'.world

theorem compileLambda_serves {t : Tree} (ht : t.Private c.operators) (hn : c.settings.nativeEnabled = false)
    (h : compileLambda t c s = (.ok a, s')) (lib : Library) : (⟨s'.units, lib⟩ : Program).Serves a s'.world := by
  obtain ⟨id, ty, shape⟩ := t
  cases shape with
  | lambda params body name => exact root_serves (ht.children body (by simp)) hn h lib
  | _ => cases h

/-- Clients of an artifact do not notice each other. If a lambda of private nodes is compiled without native code, then
for all calls of the artifact and of functions returned by earlier calls, with data as arguments, the outcomes that one
client sees are those of its calls alone. Cyclic data is left out for the texts of values only: a text follows at most
as many references as the heap has objects and arrays, and those of the other clients count. -/
theorem serve_compileLambda_filter {t : Tree} (ht : t.Private c.operators) (hn : c.settings.nativeEnabled = false)
    (h : compileLambda t c s = (.ok a, s')) (lib : Library) (fuel : Nat) (calls : List ClientCall)
    (hargs : ∀ call ∈ calls, ∀ v ∈ call.args, v.Known s'.world.heap) (client : Nat) :
    let p : Program := ⟨s'.units, lib⟩
    let old := s'.world.heap.objects.size
    (p.serve fuel a old calls (fun _ => []) s'.world).filter (fun x => x.1 == client) =
      p.serve fuel a old (calls.filter fun call => call.client == client) (fun _ => []) s'.world := by
  exact Program.serve_filter fuel (compileLambda_serves ht hn h lib) client hargs

/-- Takes a number and gives a function that adds one to it at each call. -/
def counter (x : Param) : Tree :=
  let i32 : Ty := .int .i32
  let thunk : Ty := Signature.toTy ⟨[], i32⟩
  let step : Tree := .node 5 i32 (.assign (.node 1 i32 (.parameter x)) (.node 4 i32
    (.arith .add (.node 2 i32 (.parameter x)) (.node 3 i32 (.constant (.i32 1))) false none)))
  .node 7 (Signature.toTy ⟨[i32], thunk⟩) (.lambda [x] (.node 6 thunk (.lambda [] step none)) none)

theorem counter_private : (counter ⟨0, "x", .int .i32⟩).Private [] := by
  simp only [Tree.Private, counter, Tree.all_node, Shape.children, List.forall_mem_cons, List.not_mem_nil,
    IsEmpty.forall_iff, implies_true, and_true]
  decide

/-- The numbers that calls have returned. -/
def numbersOf (xs : List (Nat × Outcome)) : List (Nat × Option Int) :=
  xs.map fun
    | (client, .returned (.data v)) => (client, v.i32?)
    | (client, _) => (client, none)

theorem serve_compileLambda_filter_counter :
    let x : Param := ⟨0, "x", .int .i32⟩
    let c : Compiler := ⟨{ nativeEnabled := false }, []⟩
    let lib : Library := ⟨[], fun _ call h => .finish call.receiver (.ok .null) h⟩
    let calls : List ClientCall := [⟨0, none, [.i32 10]⟩, ⟨1, none, [.i32 20]⟩, ⟨0, some 0, []⟩, ⟨1, some 0, []⟩,
      ⟨0, some 0, []⟩]
    (counter x).Private c.operators ∧ ∃ a s, compileLambda (counter x) c {} = (.ok a, s) ∧
      numbersOf (Program.serve ⟨s.units, lib⟩ 20 a s.world.heap.objects.size calls (fun _ => []) s.world) =
        [(0, none), (1, none), (0, some 11), (1, some 21), (0, some 12)] ∧
      (Program.serve ⟨s.units, lib⟩ 20 a s.world.heap.objects.size calls (fun _ => []) s.world).filter
        (fun x => x.1 == 0) =
        Program.serve ⟨s.units, lib⟩ 20 a s.world.heap.objects.size (calls.filter fun call => call.client == 0)
          (fun _ => []) s.world := by
  intro x c lib calls
  have hrun : (match compileLambda (counter x) c {} with
      | (.ok a, s) =>
        numbersOf (Program.serve ⟨s.units, lib⟩ 20 a s.world.heap.objects.size calls (fun _ => []) s.world) ==
        [(0, none), (1, none), (0, some 11), (1, some 21), (0, some 12)]
      | (.error _, _) => false) = true := by
    decide +kernel
  have hargs : ∀ h : Heap, ∀ call ∈ calls, ∀ v ∈ call.args, v.Known h := by
    intro h
    simp only [calls, List.forall_mem_cons, List.not_mem_nil, IsEmpty.forall_iff, implies_true, and_true]
    exact ⟨Value.known_of_isImmediate rfl, Value.known_of_isImmediate rfl⟩
  rcases hx : compileLambda (counter x) c {} with ⟨r | a, s⟩ <;> rw [hx] at hrun
  · cases hrun
  · exact ⟨counter_private, a, s, rfl, beq_iff_eq.1 hrun,
      serve_compileLambda_filter counter_private rfl hx lib 20 calls (hargs _) 0⟩

end CompileM

end ExprCompiler
