/-
What callers see of a compiled function. A caller makes one request after the other: each calls the function or what
an earlier request has returned, and is answered with a number, a truth value, a function or an exception. If a lambda
was compiled without native code, the compiled function answers all such requests as the evaluated one does.
-/
import ExprCompiler.Proofs.Conversion.Calls

namespace ExprCompiler

/-! ## Requests -/

/-- A call of a value: of the first one at hand, or of one that an earlier request has returned. -/
structure Request where
  callee : Nat
  args : List Value

/-- What a caller sees of a request: a function as such, an exception by its class and message. -/
inductive Reply
  | value (v : Value)
  | function
  | threw (cls message : Option String)
  | defect (d : Defect)
  | unfinished

namespace Reply

def of (h : Heap) : Except Stop Value → Reply
  | .ok (.func _) => .function
  | .ok v => .value v
  | .error (.thrown v) => .threw v.exceptionClass? (v.exceptionMessage? h)
  | .error (.defect d) => .defect d
  | .error .exhausted => .unfinished

/-- The request has been answered with a value or an exception. -/
def isAnswer : Reply → Bool
  | .value _ | .function | .threw _ _ => true
  | .defect _ | .unfinished => false

/-- A value was found to have another type than the one declared for it. In the language of numbers, truth values and
functions, only the check behind the load of an item from an indexed closure finds that. -/
def failsCheck : Reply → Bool
  | .threw cls _ => cls == some Class.invalidCast.name
  | _ => false

def number? : Reply → Option Int
  | .value v => v.i32?
  | _ => none

def exception? : Reply → Option (Option String × Option String)
  | .threw cls message => some (cls, message)
  | _ => none

end Reply

/-- Makes requests one after the other. What a request returns joins the values at hand, null if it returns nothing. -/
def Program.replies (p : Program) (fuel : Nat) : List Value → List Request → World → List Reply
  | _, [], _ => []
  | vs, r :: rs, w =>
    let (outcome, w) := p.invokeValue fuel (vs.getD r.callee .null) r.args w
    .of w.heap outcome :: p.replies fuel (vs ++ [outcome.toOption.getD .null]) rs w

/-- A function takes numbers and truth values of the types that it declares. -/
def Ty.takes : Ty → List Value → Bool
  | .func params _, args =>
    args.length != params.length || (params.zip args).all fun (ty, v) => ty.isScalar && v.hasType ty
  | _, _ => true

/-- The type of what a function returns. -/
def Ty.returned : Ty → Ty
  | .func _ ret => ret
  | ty => ty

/-- Each request has arguments for its callee, where the values at hand have the given types. -/
def Request.areTyped : List Ty → List Request → Bool
  | _, [] => true
  | tys, r :: rs =>
    let ty := tys.getD r.callee .object
    ty.takes r.args && areTyped (tys ++ [ty.returned]) rs

/-- All arguments are numbers and truth values, whatever types are declared for them. -/
def Request.areScalar (rs : List Request) : Bool :=
  rs.all fun r => r.args.all Value.isScalar

/-- Requests after which closures hold nothing of a wrong type, or at least no such thing has been found. -/
def Request.Sound (ty : Ty) (rs : List Request) (compiled : List Reply) : Prop :=
  areTyped [ty] rs = true ∨ areScalar rs = true ∧ ∀ o ∈ compiled, o.failsCheck = false

theorem Program.replies_cons (p : Program) (fuel : Nat) (vs : List Value) (r : Request) (rs : List Request)
    (w : World) : p.replies fuel vs (r :: rs) w =
      let x := w.invoked (p.invoke fuel) (vs.getD r.callee .null) r.args
      .of x.2.heap x.1 :: p.replies fuel (vs ++ [x.1.toOption.getD .null]) rs x.2 := by
  have hinvoke : p.invokeValue fuel (vs.getD r.callee .null) r.args w =
      w.invoked (p.invoke fuel) (vs.getD r.callee .null) r.args := by
    unfold invokeValue World.invoked
    cases (vs.getD r.callee .null).asCallable <;> rfl
  simp only [replies, hinvoke]

/-! ## Values at hand -/

/-- What callers of both sides have at hand: values that stand for each other, or nothing but null. -/
def Matches (C : Converted) (κ : Set Twin) (ty : Ty) (v a : Value) : Prop :=
  Stands C κ ty v a ∨ v = .null ∧ a = .null

/-- Requests as the callers of converted functions make them. -/
def Converted.Admits (C : Converted) (tys : List Ty) (rs : List Request) : Prop :=
  Request.areScalar rs = true ∧ ¬C.strict ∨ Request.areTyped tys rs = true

/-- Arguments as the callers of converted functions pass them. -/
def Converted.Accepts (C : Converted) (ty : Ty) (args : List Value) : Prop :=
  args.all Value.isScalar = true ∧ ¬C.strict ∨ ty.takes args = true

theorem Converted.Admits.cons {C : Converted} {tys : List Ty} {r : Request} {rs : List Request}
    (h : C.Admits tys (r :: rs)) : C.Accepts (tys.getD r.callee .object) r.args ∧
      C.Admits (tys ++ [(tys.getD r.callee .object).returned]) rs := by
  rcases h with ⟨hscalar, hstrict⟩ | htyped
  · obtain ⟨hr, hrs⟩ := Bool.and_eq_true_iff.1 hscalar
    exact ⟨.inl ⟨hr, hstrict⟩, .inl ⟨hrs, hstrict⟩⟩
  · obtain ⟨hr, hrs⟩ := Bool.and_eq_true_iff.1 htyped
    exact ⟨.inr hr, .inr hrs⟩

theorem Converted.Accepts.passed {C : Converted} {κ : Set Twin} {params : List Ty} {ret : Ty} {args : List Value}
    (h : C.Accepts (.func params ret) args) : Passed C κ params args args := by
  refine ⟨rfl, fun hlen => ⟨hlen, hlen, fun i ty v a hty hv ha => ?_⟩⟩
  rw [hv] at ha
  cases ha
  rcases h with ⟨hscalar, hstrict⟩ | htakes
  · exact .scalar (List.all_eq_true.1 hscalar v (List.mem_of_getElem? hv)) fun h => absurd h hstrict
  · simp only [Ty.takes, hlen, bne_self_eq_false, Bool.false_or, List.all_eq_true] at htakes
    have hmem : (ty, v) ∈ params.zip args := by
      refine List.mem_of_getElem? (i := i) ?_
      simp [List.getElem?_zip_eq_some, hty, hv]
    obtain ⟨hty, hv⟩ := Bool.and_eq_true_iff.1 (htakes (ty, v) hmem)
    exact .typed hty hv

namespace Converted

variable {C : Converted} {S : Surroundings C} {κ κ' : Set Twin} {w wE : World} {ty : Ty} {v a : Value}

/-- A request on both sides. -/
theorem request_agrees {args : List Value} (hS : S.Calls) (hv : Matches C κ ty v a) (hargs : C.Accepts ty args)
    (hpaired : C.Paired κ w wE) :
    S.Excuses (w.invoked S.machine v args) (wE.invoked S.eval a args) ∨
      C.Agrees κ ty.returned (w.invoked S.machine v args) (wE.invoked S.eval a args) := by
  rcases hv with hstands | ⟨rfl, rfl⟩
  · cases hstands with
    | scalar hv _ => exact .inr (invoked_scalar hv hpaired)
    | null => exact invoked_agrees hS .null hargs.passed hpaired
    | function ht => exact invoked_agrees hS (.function ht) hargs.passed hpaired
  · exact .inr (invoked_refused rfl hpaired)

/-- What agrees is answered, and looks the same. -/
theorem Agrees.reply {r rE : Except Stop Value × World} (h : C.Agrees κ ty r rE) :
    Reply.of r.2.heap r.1 = Reply.of rE.2.heap rE.1 ∧ (Reply.of rE.2.heap rE.1).isAnswer = true := by
  rcases r with ⟨stop | v, w⟩ <;> rcases rE with ⟨stop' | a, wE⟩
  · obtain ⟨κ', u, -, rfl, rfl, hpaired⟩ := h
    rw [hpaired.heap]
    exact ⟨rfl, rfl⟩
  · exact h.elim
  · exact h.elim
  · obtain ⟨κ', -, hv, -⟩ := h
    cases hv with
    | scalar hv _ => rcases Value.isScalar_cases hv with ⟨n, rfl⟩ | ⟨b, rfl⟩ <;> exact ⟨rfl, rfl⟩
    | null | function _ => exact ⟨rfl, rfl⟩

/-- What agrees leaves both callers with values that match. -/
theorem Agrees.returned {r rE : Except Stop Value × World} (h : C.Agrees κ ty r rE) :
    ∃ κ', κ ≤ κ' ∧ Matches C κ' ty (r.1.toOption.getD .null) (rE.1.toOption.getD .null) ∧ C.Paired κ' r.2 rE.2 := by
  rcases r with ⟨stop | v, w⟩ <;> rcases rE with ⟨stop' | a, wE⟩
  · obtain ⟨κ', u, hκ, -, -, hpaired⟩ := h
    exact ⟨κ', hκ, .inr ⟨rfl, rfl⟩, hpaired⟩
  · exact h.elim
  · exact h.elim
  · obtain ⟨κ', hκ, hv, hpaired⟩ := h
    exact ⟨κ', hκ, .inl hv, hpaired⟩

/-- All that callers of both sides have at hand. -/
structure AtHand (C : Converted) (κ : Set Twin) (tys : List Ty) (vs as : List Value) : Prop where
  machine : vs.length = tys.length
  eval : as.length = tys.length
  get : ∀ i, Matches C κ (tys.getD i .object) (vs.getD i .null) (as.getD i .null)

theorem AtHand.add {tys : List Ty} {vs as : List Value} (h : C.AtHand κ tys vs as) (hκ : κ ≤ κ')
    (hv : Matches C κ' ty v a) : C.AtHand κ' (tys ++ [ty]) (vs ++ [v]) (as ++ [a]) := by
  refine ⟨by simp [h.machine], by simp [h.eval], fun i => ?_⟩
  simp only [List.getD_eq_getElem?_getD, List.getElem?_append, h.machine, h.eval]
  split
  · have hold := h.get i
    simp only [List.getD_eq_getElem?_getD] at hold
    exact hold.imp_left fun hstands => hstands.mono hκ
  · rcases i - tys.length with _ | k
    · exact hv
    · exact .inr ⟨rfl, rfl⟩

variable {lib : Library} {M E : Prop} {m n : Nat}

/-- Replies of a compiled function of which nothing is said: there was too little fuel, or a check has failed. -/
def Unsaid (C : Converted) (fuel : Prop) (o : Reply) : Prop :=
  fuel ∧ o = .unfinished ∨ ¬C.strict ∧ o.failsCheck = true

theorem unsaid_of_excused {stop : Stop} (h : (surroundings lib C m n M E).machineExcused stop) (heap : Heap) :
    C.Unsaid M (.of heap (.error stop)) := by
  rcases h with ⟨hM, rfl⟩ | ⟨hstrict, hstop⟩
  · exact .inl ⟨hM, rfl⟩
  · cases stop with
    | thrown v => exact .inr ⟨hstrict, hstop⟩
    | _ => cases hstop

/-- All requests are answered alike, where something is said of both sides. -/
theorem replies_agree (hS : (surroundings lib C m n M E).Calls) : ∀ (rs : List Request) {tys : List Ty}
    {vs as : List Value} {κ : Set Twin} {w wE : World}, C.AtHand κ tys vs as → C.Paired κ w wE → C.Admits tys rs →
    (E ∧ .unfinished ∈ Program.replies ⟨C.units, lib⟩ n as rs wE ∨
        ∃ o ∈ Program.replies ⟨C.units, lib⟩ m vs rs w, C.Unsaid M o) ∨
      Program.replies ⟨C.units, lib⟩ m vs rs w = Program.replies ⟨C.units, lib⟩ n as rs wE ∧
        ∀ o ∈ Program.replies ⟨C.units, lib⟩ n as rs wE, o.isAnswer = true
  | [], _, _, _, _, _, _, _, _, _ => .inr ⟨rfl, by simp [Program.replies]⟩
  | r :: rs, tys, vs, as, κ, w, wE, hhand, hpaired, hadmits => by
    obtain ⟨haccepts, hadmits⟩ := hadmits.cons
    obtain ⟨x, hx⟩ : ∃ x, x = w.invoked (Program.invoke ⟨C.units, lib⟩ m) (vs.getD r.callee .null) r.args := ⟨_, rfl⟩
    obtain ⟨y, hy⟩ : ∃ y, y = wE.invoked (Program.invoke ⟨C.units, lib⟩ n) (as.getD r.callee .null) r.args := ⟨_, rfl⟩
    have hagree : (surroundings lib C m n M E).Excuses x y ∨ C.Agrees κ (tys.getD r.callee .object).returned x y := by
      rw [hx, hy]
      exact request_agrees hS (hhand.get r.callee) haccepts hpaired
    simp only [Program.replies_cons, ← hx, ← hy]
    rcases hagree with (⟨stop, ⟨hE, rfl⟩, hy⟩ | ⟨stop, hM, hx⟩) | hagrees
    · exact .inl (.inl ⟨hE, by simp [hy, Reply.of]⟩)
    · exact .inl (.inr ⟨_, List.mem_cons_self, by rw [hx]; exact unsaid_of_excused hM _⟩)
    · obtain ⟨hreply, hanswer⟩ := hagrees.reply
      obtain ⟨κ', hκ, hmatches, hpaired'⟩ := hagrees.returned
      rcases replies_agree hS rs (hhand.add hκ hmatches) hpaired' hadmits with hexc | ⟨heq, hall⟩
      · refine .inl (hexc.imp (And.imp_right (List.mem_cons_of_mem _)) ?_)
        rintro ⟨o, ho, hunsaid⟩
        exact ⟨o, List.mem_cons_of_mem _ ho, hunsaid⟩
      · exact .inr ⟨congrArg₂ _ hreply heq, List.forall_mem_cons.2 ⟨hanswer, hall⟩⟩

/-- Fuel for one pass over each unit. -/
def passes (units : Array CodeUnit) : Nat :=
  (units.toList.map fun u => u.instrs.size).sum

/-- Two functions answer requests alike, given fuel for one pass over each unit on top, where something is said of the
compiled one. -/
def AnswerAlike (C : Converted) (lib : Library) (f g : Callable) (w wE : World) (rs : List Request) : Prop :=
  let compiled (fuel : Nat) := Program.replies ⟨C.units, lib⟩ fuel [.func f] rs w
  let evaluated (fuel : Nat) := Program.replies ⟨C.units, lib⟩ fuel [.func g] rs wE
  ∀ n m, n + passes C.units ≤ m →
    (.unfinished ∉ evaluated n → (∀ o ∈ compiled m, ¬C.Unsaid False o) →
      compiled m = evaluated n ∧ ∀ o ∈ evaluated n, o.isAnswer = true) ∧
    ((∀ o ∈ compiled n, ¬C.Unsaid True o) → evaluated m = compiled n ∧ ∀ o ∈ compiled n, o.isAnswer = true)

theorem answerAlike_twin {t : Twin} (hpaired : C.Paired {t} w wE) (lib : Library) {rs : List Request}
    (hadmits : C.Admits [.func (t.params.map Param.ty) t.body.ty] rs) :
    C.AnswerAlike lib t.compiled t.evaluated w wE rs := by
  have hsize : ∀ u ∈ C.units, u.instrs.size ≤ passes C.units := fun u hu =>
    List.le_sum_of_mem (List.mem_map_of_mem (Array.mem_toList_iff.2 hu))
  have hhand : C.AtHand {t} [.func (t.params.map Param.ty) t.body.ty] [.func t.compiled] [.func t.evaluated] := by
    refine ⟨rfl, rfl, fun i => ?_⟩
    rcases i with _ | i
    · exact .inl (.function rfl)
    · exact .inr ⟨rfl, rfl⟩
  intro n m hle
  constructor
  · intro hfinished hsaid
    have hS : (surroundings lib C m n False True).Calls := calls_of_eval hsize n m hle
    refine (replies_agree hS rs hhand hpaired hadmits).resolve_left ?_
    rintro (⟨-, hmem⟩ | ⟨o, ho, hunsaid⟩)
    · exact hfinished hmem
    · exact hsaid o ho hunsaid
  · intro hsaid
    have hS : (surroundings lib C n m True False).Calls := calls_of_machine n m (by omega)
    obtain ⟨heq, hall⟩ := (replies_agree hS rs hhand hpaired hadmits).resolve_left (by
      rintro (⟨hfalse, -⟩ | ⟨o, ho, hunsaid⟩)
      · exact hfalse
      · exact hsaid o ho hunsaid)
    exact ⟨heq.symm, fun o ho => hall o (heq ▸ ho)⟩

/-! ## Compiled lambdas -/

/-- A compiled root and an instance of it are twins. -/
theorem root_paired {s : Session} {artifact : Artifact} {params : List Param} {name : Option String} {capture : Capture}
    (hroot : CompileM.Rooted C.compiler C.root (name.getD "lambda") params C.root.ty artifact s capture)
    (hunits : s.units = C.units) (hnodup : params.Nodup) :
    ∃ t : Twin, artifact.callable? = some t.compiled ∧ t.evaluated = .interpreted ⟨s.world.lambdas.size⟩ ∧
      t.params = params ∧ t.body = C.root ∧ C.Paired {t} s.world (s.world.newLambda ⟨name, params, C.root, #[]⟩).2 := by
  obtain ⟨closure, hcallable, hclosure, hitems⟩ := hroot.callable
  obtain ⟨hcompiled, -, hclosed, hlinked, -⟩ := hroot
  rw [hunits] at hcompiled hlinked
  refine ⟨⟨artifact.unit, closure, ⟨s.world.lambdas.size⟩, name, params, C.root, capture, []⟩, hcallable, rfl, rfl, rfl,
    rfl, ?_, ?_, ?_⟩
  · rintro t rfl
    refine ⟨⟨hlinked, hcompiled, .here, hnodup, hclosure⟩, #[], Array.getElem?_push_size, rfl, fun r hr => ?_⟩
    obtain ⟨k, hk, hitems⟩ := hitems r hr
    refine ⟨k, hk, fun i p hi => ?_, fun i n hn => ?_⟩
    · have := Capture.index_lt hi
      simp [hclosed] at this
    · refine ⟨n.artifact.itemValue, ?_, n, hcompiled.nested n (List.mem_of_getElem? hn), rfl, rfl⟩
      have hn : capture.nested[i]? = some n := hn
      simp [hitems, hclosed, C.no_constants hcompiled, hn]
  · rintro t rfl t' rfl r - -
    rfl
  · rintro t rfl t' rfl -
    rfl

end Converted

theorem Tree.SharesNodes.inside {n t : Tree} (h : t.SharesNodes) (ho : n.Occurs t) : n.SharesNodes :=
  fun a b ha hb hid => h a b (ha.trans ho) (hb.trans ho) hid

theorem Requested.ret_of_resultOf {sig : Signature} {params : List Param} {body ret : Ty}
    (h : Requested.resultOf (some sig) body params = .ok ret) : ret = sig.ret := by
  unfold resultOf at h
  split at h
  case h_1 hnone => cases hnone
  case h_2 hsome =>
    cases hsome
    split at h
    · cases h
    · split at h
      · cases h
      · dsimp only at h
        split at h <;> cases h
        rfl

namespace CompileM

variable {c : Compiler} {s s' : Session} {a : Artifact} {t : Tree}

/-- A compiled lambda is a function that cannot be told from the evaluated one. Take any simply typed lambda, any limit
for fixed closures, and any requests whose arguments have the declared types, or else are numbers and truth values of
which no check of an item of an indexed closure throws. If one of the two answers all requests, then so does the other
one, given more fuel, and with the same values and exceptions. -/
theorem replies_compileLambda (hcompile : compileLambda t c s = (.ok a, s'))
    (hnative : c.settings.nativeEnabled = false)
    (htyped : t.SimplyTyped) (hshares : t.SharesNodes) (hsmall : ∀ u ∈ s'.units, u.Small) (lib : Library) :
    ∃ f l w, a.callable? = some f ∧ Eval.interpret? t s'.world = some (l, w) ∧ ∃ extra, ∀ rs,
      let compiled (fuel : Nat) := Program.replies ⟨s'.units, lib⟩ fuel [.func f] rs s'.world
      let evaluated (fuel : Nat) := Program.replies ⟨s'.units, lib⟩ fuel [.func (.interpreted l)] rs w
      ∀ n m, n + extra ≤ m →
        (.unfinished ∉ evaluated n → Request.Sound t.ty rs (compiled m) →
          compiled m = evaluated n ∧ ∀ o ∈ evaluated n, o.isAnswer = true) ∧
        (.unfinished ∉ compiled n → Request.Sound t.ty rs (compiled n) →
          evaluated m = compiled n ∧ ∀ o ∈ compiled n, o.isAnswer = true) := by
  rcases t with ⟨id, ty, shape⟩
  cases shape with
  | lambda params body name =>
    obtain ⟨ret, capture, hret, hroot⟩ := root_rooted hcompile
    obtain ⟨-, hty, hnodup⟩ := htyped.root
    have hbody : body.Occurs (.node id ty (.lambda params body name)) := .of_child (List.mem_singleton_self body)
    let C (strict : Prop) : Converted :=
      ⟨c, body, s'.units, Tree.All.inside htyped hbody, hshares.inside hbody, hnative, hsmall, strict⟩
    obtain rfl : ret = body.ty := by
      rw [hty] at hret
      exact Requested.ret_of_resultOf hret
    -- typed requests and others differ in what closures hold
    have halike : ∀ strict, ∃ f, a.callable? = some f ∧ ∀ rs, (C strict).Admits [ty] rs →
        (C strict).AnswerAlike lib f (.interpreted ⟨s'.world.lambdas.size⟩) s'.world
          (s'.world.newLambda ⟨name, params, body, #[]⟩).2 rs := by
      intro strict
      obtain ⟨twin, hcallable, heval, rfl, htwin, hpaired⟩ := (C strict).root_paired hroot rfl hnodup
      refine ⟨_, hcallable, fun rs hadmits => ?_⟩
      rw [hty, ← show twin.body.ty = body.ty from congrArg Tree.ty htwin] at hadmits
      rw [← heval]
      exact Converted.answerAlike_twin hpaired lib hadmits
    obtain ⟨f, hf, htypedAlike⟩ := halike True
    obtain ⟨f', hf', hscalarAlike⟩ := halike False
    obtain rfl : f = f' := Option.some.inj (hf.symm.trans hf')
    have hsaid : ∀ {fuel : Prop} {o : Reply}, (fuel → o ≠ .unfinished) → ¬(C True).Unsaid fuel o := by
      rintro fuel o ho (⟨hfuel, heq⟩ | ⟨hstrict, -⟩)
      · exact ho hfuel heq
      · exact hstrict trivial
    have hsaid' : ∀ {fuel : Prop} {o : Reply}, (fuel → o ≠ .unfinished) → o.failsCheck = false →
        ¬(C False).Unsaid fuel o := by
      rintro fuel o ho hnone (⟨hfuel, heq⟩ | ⟨-, hfails⟩)
      · exact ho hfuel heq
      · rw [hnone] at hfails
        cases hfails
    refine ⟨f, _, _, hf, rfl, Converted.passes s'.units, fun rs => ?_⟩
    intro compiled evaluated n m hle
    constructor
    · rintro hfinished (htyped | ⟨hscalar, hnone⟩)
      · exact (htypedAlike rs (.inr htyped) n m hle).1 hfinished fun o _ => hsaid False.elim
      · exact (hscalarAlike rs (.inl ⟨hscalar, not_false⟩) n m hle).1 hfinished fun o ho => hsaid' False.elim
          (hnone o ho)
    · rintro hfinished (htyped | ⟨hscalar, hnone⟩)
      · exact (htypedAlike rs (.inr htyped) n m hle).2 fun o ho => hsaid fun _ => ne_of_mem_of_not_mem ho hfinished
      · exact (hscalarAlike rs (.inl ⟨hscalar, not_false⟩) n m hle).2 fun o ho =>
          hsaid' (fun _ => ne_of_mem_of_not_mem ho hfinished) (hnone o ho)
  | _ => cases hcompile

/-- Adds to the argument of an earlier call. -/
def accumulator (x y : Param) : Tree :=
  let i32 : Ty := .int .i32
  let sum : Tree := .node 2 i32 (.arith .add (.node 0 i32 (.parameter x)) (.node 1 i32 (.parameter y)) true none)
  let step : Tree := .node 4 i32 (.assign (.node 3 i32 (.parameter x)) sum)
  .node 6 (.func [i32] (.func [i32] i32)) (.lambda [x] (.node 5 (.func [i32] i32) (.lambda [y] step none)) none)

theorem replies_compileLambda_accumulator :
    let x : Param := ⟨0, "x", .int .i32⟩
    let y : Param := ⟨1, "y", .int .i32⟩
    let c : Compiler := ⟨{ nativeEnabled := false, fixedFieldLimit := 0 }, []⟩
    let lib : Library := ⟨[], fun _ call h => .finish call.receiver (.ok .null) h⟩
    let rs : List Request := [⟨0, [.i32 5]⟩, ⟨1, [.i32 2]⟩, ⟨1, [.bool true]⟩, ⟨1, [.i32 3]⟩, ⟨1, []⟩]
    ∃ a s f l w, compileLambda (accumulator x y) c {} = (.ok a, s) ∧ a.callable? = some f ∧
      Eval.interpret? (accumulator x y) s.world = some (l, w) ∧
      (Program.replies ⟨s.units, lib⟩ 20 [.func f] rs s.world).map Reply.number? = [none, some 7, none, some 10, none] ∧
      ∃ fuel, Program.replies ⟨s.units, lib⟩ fuel [.func (.interpreted l)] rs w =
        Program.replies ⟨s.units, lib⟩ 20 [.func f] rs s.world := by
  intro x y c lib rs
  have hrun : (let r := compileLambda (accumulator x y) c {}
      r.1.toOption.any fun a => r.2.units.all (fun u => decide u.Small) && a.callable?.any fun f =>
        (Program.replies ⟨r.2.units, lib⟩ 20 [.func f] rs r.2.world).map
            (fun r => (r.number?, r.isAnswer && !r.failsCheck)) ==
          [(none, true), (some 7, true), (none, true), (some 10, true), (none, true)]) = true := by
    decide +kernel
  have htyped : (accumulator x y).SimplyTyped := by
    simp only [Tree.SimplyTyped, accumulator, Tree.all_node, Shape.children, List.forall_mem_cons, List.not_mem_nil,
      IsEmpty.forall_iff, implies_true, and_true]
    simp [Shape.SimplyTyped, Ty.isSimple, Ty.isScalar, Tree.ty, Tree.shape, x, y]
  have hshares : (accumulator x y).SharesNodes := by
    refine Tree.sharesNodes_of_named ?_
    simp only [accumulator, Tree.all_node, Shape.children, List.forall_mem_cons, List.not_mem_nil, IsEmpty.forall_iff,
      implies_true, and_true]
    and_intros <;> rfl
  rcases hx : compileLambda (accumulator x y) c {} with ⟨r | a, s⟩ <;> rw [hx] at hrun
  · cases hrun
  obtain ⟨hsmall, hreplies⟩ := Bool.and_eq_true_iff.1 hrun
  have hsmall : ∀ u ∈ s.units, u.Small := fun u hu => of_decide_eq_true (Array.all_eq_true_iff_forall_mem.1 hsmall u hu)
  obtain ⟨f, l, w, hcallable, heval, extra, hall⟩ := replies_compileLambda hx rfl htyped hshares hsmall lib
  rw [hcallable] at hreplies
  have hreplies := beq_iff_eq.1 hreplies
  have hsound : ∀ o ∈ Program.replies ⟨s.units, lib⟩ 20 [.func f] rs s.world, (o.isAnswer && !o.failsCheck) = true := by
    intro o ho
    have := List.mem_map_of_mem (f := fun r : Reply => (r.number?, r.isAnswer && !r.failsCheck)) ho
    rw [hreplies] at this
    simp only [List.mem_cons, Prod.mk.injEq, List.not_mem_nil, or_false] at this
    grind
  refine ⟨a, s, f, l, w, rfl, hcallable, heval, ?_, 20 + extra, ((hall rs 20 _ le_rfl).2 (fun hmem => ?_) (.inr ⟨rfl,
    fun o ho => ?_⟩)).1⟩
  · have hnumbers := congrArg (List.map Prod.fst) hreplies
    rwa [List.map_map] at hnumbers
  · cases hsound _ hmem
  · simpa using (Bool.and_eq_true_iff.1 (hsound o ho)).2

/-- Returns its argument by way of a function that has captured it. -/
def delayed (x : Param) : Tree :=
  let i32 : Ty := .int .i32
  let thunk : Tree := .node 1 (.func [] i32) (.lambda [] (.node 0 i32 (.parameter x)) none)
  .node 3 (.func [i32] i32) (.lambda [x] (.node 2 i32 (.invoke thunk [])) none)

def onlyTrue : List Reply → Bool
  | [.value (.bool true)] => true
  | _ => false

/-- An argument of another type than the declared one: an indexed closure checks what it holds, the evaluator does not.
-/
theorem replies_mistyped :
    let x : Param := ⟨0, "x", .int .i32⟩
    let c : Compiler := ⟨{ nativeEnabled := false, fixedFieldLimit := 0 }, []⟩
    let lib : Library := ⟨[], fun _ call h => .finish call.receiver (.ok .null) h⟩
    let rs : List Request := [⟨0, [.bool true]⟩]
    (delayed x).SimplyTyped ∧ ∃ a s f l w, compileLambda (delayed x) c {} = (.ok a, s) ∧ a.callable? = some f ∧
      Eval.interpret? (delayed x) s.world = some (l, w) ∧
      Program.replies ⟨s.units, lib⟩ 20 [.func (.interpreted l)] rs w = [.value (.bool true)] ∧
      (Program.replies ⟨s.units, lib⟩ 20 [.func f] rs s.world).map Reply.exception? =
        [some (some "InvalidCastException", some "Unable to cast Bool(true) to i32")] := by
  intro x c lib rs
  have htyped : (delayed x).SimplyTyped := by
    simp only [Tree.SimplyTyped, delayed, Tree.all_node, Shape.children, List.forall_mem_cons, List.not_mem_nil,
      IsEmpty.forall_iff, implies_true, and_true]
    simp [Shape.SimplyTyped, Ty.isSimple, Ty.isScalar, Tree.ty, x]
  have hrun : (let r := compileLambda (delayed x) c {}
      r.1.toOption.any fun a => a.callable?.any fun f => (Eval.interpret? (delayed x) r.2.world).any fun e =>
        onlyTrue (Program.replies ⟨r.2.units, lib⟩ 20 [.func (.interpreted e.1)] rs e.2) &&
          (Program.replies ⟨r.2.units, lib⟩ 20 [.func f] rs r.2.world).map Reply.exception? ==
            [some (some "InvalidCastException", some "Unable to cast Bool(true) to i32")]) = true := by
    decide +kernel
  rcases hx : compileLambda (delayed x) c {} with ⟨r | a, s⟩ <;> rw [hx] at hrun
  · cases hrun
  rcases hf : a.callable? with _ | f <;> rcases hl : Eval.interpret? (delayed x) s.world with _ | ⟨l, w⟩ <;>
    simp only [Except.toOption, hf, hl, Option.any_some, Option.any_none, Bool.false_eq_true] at hrun
  obtain ⟨heval, hcompiled⟩ := Bool.and_eq_true_iff.1 hrun
  refine ⟨htyped, a, s, f, l, w, rfl, hf, hl, ?_, beq_iff_eq.1 hcompiled⟩
  unfold onlyTrue at heval
  split at heval
  · assumption
  · cases heval

end CompileM

end ExprCompiler
