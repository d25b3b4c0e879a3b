/-
Compiled functions and evaluated ones, in the language of numbers, truth values and functions over them. A
compiled function and the evaluator's instance of the same lambda are twins: the closure of the one holds what the
captured variables of the other hold. New functions and assignments to captured variables keep all twins so.
-/
import ExprCompiler.Proofs.Compile.Nested
import ExprCompiler.Proofs.Simulation.Variables

namespace ExprCompiler

/-! ## The language -/

/-- Numbers and truth values. -/
def Ty.isScalar : Ty → Bool
  | .int .i32 | .bool => true
  | _ => false

/-- The values of these types. -/
theorem Value.cases_of_isScalar {ty : Ty} {v : Value} (hty : ty.isScalar = true) (hv : v.hasType ty = true) :
    (∃ n : Word, ty = .int .i32 ∧ v = .int n ∧ n.kind = .i32) ∨ ∃ b, ty = .bool ∧ v = .bool b := by
  unfold Ty.isScalar at hty
  split at hty
  · cases v with
    | int n => exact .inl ⟨n, rfl, rfl, by simpa [hasType] using hv⟩
    | _ => cases hv
  · cases v with
    | bool b => exact .inr ⟨b, rfl, rfl⟩
    | _ => cases hv
  · cases hty

/-- A number or a truth value, whatever type it is passed for. -/
def Value.isScalar (v : Value) : Bool :=
  v.hasType (.int .i32) || v.hasType .bool

theorem Value.isScalar_of_hasType {ty : Ty} {v : Value} (hty : ty.isScalar = true) (hv : v.hasType ty = true) :
    v.isScalar = true := by
  rcases cases_of_isScalar hty hv with ⟨n, rfl, -, -⟩ | ⟨b, rfl, -⟩ <;> simp [isScalar, hv]

theorem Value.isScalar_cases {v : Value} (h : v.isScalar = true) : (∃ n, v = .int n) ∨ ∃ b, v = .bool b := by
  rcases Bool.or_eq_true_iff.1 h with h | h
  · obtain ⟨n, -, rfl, -⟩ | ⟨b, hty, -⟩ := cases_of_isScalar rfl h
    · exact .inl ⟨n, rfl⟩
    · cases hty
  · obtain ⟨n, hty, -⟩ | ⟨b, -, rfl⟩ := cases_of_isScalar rfl h
    · cases hty
    · exact .inr ⟨b, rfl⟩

/-- Numbers, truth values and functions. -/
def Ty.isSimple : Ty → Bool
  | .func _ _ => true
  | ty => ty.isScalar

/-- A node of the language whose parts have the types that it declares. -/
def Shape.SimplyTyped (ty : Ty) : Shape Tree → Prop
  | .constant v => ty.isScalar = true ∧ v.hasType ty = true
  | .parameter p => p.ty = ty
  | .lambda params body _ => ty = .func (params.map Param.ty) body.ty ∧ params.Nodup
  | .invoke target args => target.ty = .func (args.map Tree.ty) ty
  | .arith _ left right _ method =>
    method = none ∧ left.ty = .int .i32 ∧ right.ty = .int .i32 ∧ ty = .int .i32
  | .compare _ left right method => method = none ∧ left.ty.isScalar = true ∧ right.ty = left.ty ∧ ty = .bool
  | .logical _ left right => left.ty = .bool ∧ right.ty = .bool ∧ ty = .bool
  | .cond test ifTrue ifFalse => test.ty = .bool ∧ ifTrue.ty = ty ∧ ifFalse.ty = ty
  | .block vars body => (∀ p ∈ vars, p.ty.isSimple = true) ∧ ∀ t ∈ body.getLast?, t.ty = ty
  | .assign target v => (∃ p, target.shape = .parameter p) ∧ target.ty = ty ∧ v.ty = ty
  | _ => False

/-- A simply typed tree of the language. -/
def Tree.SimplyTyped : Tree → Prop :=
  Tree.All fun _ ty s => ty.isSimple = true ∧ s.SimplyTyped ty

/-- A unit with as many formals, locals and closure items as 16-bit positions can tell apart. -/
structure CodeUnit.Small (u : CodeUnit) : Prop where
  params : u.params.length < Nat.pow 2 16
  locals : u.locals.size < Nat.pow 2 16
  items : ∀ l ∈ u.layout, l.size < Nat.pow 2 16

instance (u : CodeUnit) : Decidable u.Small :=
  decidable_of_iff (u.params.length < Nat.pow 2 16 ∧ u.locals.size < Nat.pow 2 16 ∧ ∀ l ∈ u.layout,
    l.size < Nat.pow 2 16) ⟨fun h => ⟨h.1, h.2.1, h.2.2⟩, fun h => ⟨h.params, h.locals, h.items⟩⟩

/-- A tree of the language whose lambdas have been compiled. -/
structure Converted where
  compiler : Compiler
  root : Tree
  units : Array CodeUnit
  typed : root.SimplyTyped
  shares : root.SharesNodes
  plain : compiler.settings.nativeEnabled = false
  small : ∀ u ∈ units, u.Small
  /-- All calls from outside pass arguments of the declared types. -/
  strict : Prop

namespace Converted

variable (C : Converted)

def limit : Nat :=
  C.compiler.settings.fixedFieldLimit

/-- All constants fit into instructions. -/
theorem no_constants {capture : Capture} (h : capture.Compiled C.compiler C.root C.units) : capture.constants = [] := by
  refine List.eq_nil_iff_forall_not_mem.2 fun r hr => ?_
  obtain ⟨hoccurs, hnot⟩ := h.constants r hr
  obtain ⟨-, hscalar, htype⟩ := C.typed.of_occurs hoccurs
  rcases Value.cases_of_isScalar hscalar htype with ⟨n, -, hn, -⟩ | ⟨b, -, hb⟩
  · rw [hn] at hnot
    cases hnot
  · rw [hb] at hnot
    cases hnot

end Converted

/-! ## Variables of instances -/

/-- An instance of a lambda gets a new value for a variable that it has captured. -/
def World.setCaptured (w : World) (l : LambdaRef) (j : Nat) (a : Value) : World :=
  { w with lambdas := w.lambdas.modify l.id fun lambda =>
      { lambda with captured := EvalM.setValue lambda.captured j a } }

namespace EvalM

variable {vars : Activation} {p q : Param} {a b : Value} {j k : Nat}

theorem getElem?_setValue (vars : Activation) (j k : Nat) (b : Value) :
    (setValue vars j b).toList[k]? = if j = k then vars.toList[k]?.map fun x => (x.1, b) else vars.toList[k]? := by
  rw [Array.getElem?_toList, setValue, Array.getElem?_modify, Array.getElem?_toList]

/-- No variable comes to stand in front of another one. -/
theorem setValue_last (h : Innermost vars.toList q a k) (j : Nat) (b : Value) :
    ∀ i, k < i → ∀ r d, (setValue vars j b).toList[i]? = some (r, d) → r ≠ q := by
  intro i hi r d hr
  rw [getElem?_setValue] at hr
  split at hr
  · obtain ⟨x, hx, he⟩ := Option.map_eq_some_iff.1 hr
    cases he
    exact h.last i hi _ _ hx
  · exact h.last i hi r d hr

theorem innermost_setValue (h : Innermost vars.toList p a j) (b : Value) :
    Innermost (setValue vars j b).toList p b j := by
  refine ⟨?_, setValue_last h j b⟩
  rw [getElem?_setValue, if_pos rfl, h.here]
  rfl

theorem innermost_setValue_of_ne (h : Innermost vars.toList q a k) (hne : j ≠ k) (b : Value) :
    Innermost (setValue vars j b).toList q a k := by
  refine ⟨?_, setValue_last h j b⟩
  rw [getElem?_setValue, if_neg hne]
  exact h.here

end EvalM

/-! ## Twins -/

/-- A compiled function and the evaluator's instance of the same lambda. -/
structure Twin where
  unit : UnitRef
  closure : Option ClosureRef
  lambda : LambdaRef
  name : Option String
  params : List Param
  body : Tree
  /-- What the unit captures. -/
  capture : Capture
  /-- The variables that the instance has copied. -/
  tokens : List Param

namespace Twin

variable (t : Twin)

def compiled : Callable :=
  .code t.unit t.closure

def evaluated : Callable :=
  .interpreted t.lambda

/-- Where the instance keeps its innermost copy of a variable. -/
def position (p : Param) : Nat :=
  (EvalM.position? (t.tokens.map (·, Value.null)).toArray p).getD 0

/-- The variables of an instance stay where they are. -/
theorem position_eq {captured : Activation} {p : Param} {a : Value} {j : Nat}
    (htokens : captured.toList.map Prod.fst = t.tokens) (h : Innermost captured.toList p a j) : t.position p = j := by
  have hmap : Innermost (t.tokens.map (·, Value.null)) p .null j := by
    rw [← htokens, List.map_map]
    exact h.map (f := fun _ => Value.null)
  have hposition : EvalM.position? (t.tokens.map (·, Value.null)).toArray p = some j :=
    EvalM.position?_of_innermost hmap
  rw [position, hposition]
  rfl

end Twin

/-- A value of the machine stands for one of the evaluator: the same number or truth value, null for null, or a
function for its twin. Numbers and truth values have the declared types only if all calls pass such. -/
inductive Stands (C : Converted) (κ : Set Twin) : Ty → Value → Value → Prop
  | scalar {ty : Ty} {v : Value} (hv : v.isScalar = true) (hty : C.strict → v.hasType ty = true) : Stands C κ ty v v
  | null {params : List Ty} {ret : Ty} : Stands C κ (.func params ret) .null .null
  | function {t : Twin} (h : t ∈ κ) :
    Stands C κ (.func (t.params.map Param.ty) t.body.ty) (.func t.compiled) (.func t.evaluated)

namespace Stands

variable {C : Converted} {κ κ' : Set Twin} {ty : Ty} {v a : Value}

theorem typed (hty : ty.isScalar = true) (hv : v.hasType ty = true) : Stands C κ ty v v :=
  .scalar (Value.isScalar_of_hasType hty hv) fun _ => hv

theorem mono (hκ : κ ≤ κ') (h : Stands C κ ty v a) : Stands C κ' ty v a := by
  cases h with
  | scalar hv hty => exact .scalar hv hty
  | null => exact .null
  | function h => exact .function (hκ h)

theorem zero (h : ty.isSimple = true) : Stands C κ ty ty.zero ty.zero := by
  cases ty with
  | bool => exact .typed rfl rfl
  | int k =>
    cases k with
    | i32 => exact .typed rfl rfl
    | _ => cases h
  | func params ret => exact .null
  | _ => cases h

/-- Numbers and truth values stand for themselves. -/
theorem eq (h : Stands C κ ty v a) (hty : ty.isScalar = true) :
    v = a ∧ a.isScalar = true ∧ (C.strict → a.hasType ty = true) := by
  cases h with
  | scalar hv hv' => exact ⟨rfl, hv, hv'⟩
  | null | function _ => cases hty

end Stands

/-! ## Items -/

theorem Capture.index_lt {capture : Capture} {p : Param} {i : Nat} (h : capture.paramIndex? p = some i) :
    i < capture.params.length :=
  (List.findIdx?_eq_some_iff_getElem.1 h).1

/-- An item belongs to one variable. -/
theorem Capture.param_of_index {capture : Capture} {p q : Param} {i : Nat} (hp : capture.paramIndex? p = some i)
    (hq : capture.paramIndex? q = some i) : p = q := by
  obtain ⟨_, hp, -⟩ := List.findIdx?_eq_some_iff_getElem.1 hp
  obtain ⟨_, hq, -⟩ := List.findIdx?_eq_some_iff_getElem.1 hq
  exact (beq_iff_eq.1 hp).symm.trans (beq_iff_eq.1 hq)

/-! ## Worlds -/

section

variable (C : Converted) (κ : Set Twin) (t : Twin)

/-- The unit of a twin is the code of its lambda, with a closure if the unit captures anything. -/
structure Twin.Made : Prop where
  linked : CodeUnit.LinkedFor C.compiler C.units t.unit (t.name.getD "lambda") t.body t.params t.body.ty t.capture
  captures : t.capture.Compiled C.compiler C.root C.units
  occurs : t.body.Occurs C.root
  formals : t.params.Nodup
  closure : t.closure.isSome = !t.capture.isEmpty

/-- The item of a lambda inside of another one, as the lambda was compiled at one place or another. -/
def Converted.IsItem (n : Nested) (v : Value) : Prop :=
  ∃ m : Nested, m.Compiled C.compiler C.root C.units ∧ m.plain = n.plain ∧ v = m.artifact.itemValue

/-- The items of a closure stand for the variables that the instance has captured; behind them are the lambdas
inside of it. -/
structure Twin.Items (items : Array Value) (captured : Activation) : Prop where
  params : ∀ i p, t.capture.paramIndex? p = some i →
    ∃ v a j, items[i]? = some v ∧ Innermost captured.toList p a j ∧ Stands C κ p.ty v a
  nested : ∀ (i : Nat) n, t.capture.nested[i]? = some n →
    ∃ v, items[t.capture.params.length + i]? = some v ∧ C.IsItem n v

/-- A twin is there on both sides. -/
structure Twin.Held (w wE : World) : Prop where
  made : t.Made C
  lambda : ∃ captured, wE.lambda? t.lambda = some ⟨t.name, t.params, t.body, captured⟩ ∧
    captured.toList.map Prod.fst = t.tokens ∧
    ∀ r, t.closure = some r → ∃ c, w.closures[r.id]? = some c ∧ t.Items C κ c.items captured

/-- The worlds of the machine and of the evaluator: one heap, and twins that share neither closures nor instances. -/
structure Converted.Paired (w wE : World) : Prop where
  heap : w.heap = wE.heap
  held : ∀ t ∈ κ, t.Held C κ w wE
  closures : ∀ t ∈ κ, ∀ t' ∈ κ, ∀ r, t.closure = some r → t'.closure = some r → t = t'
  lambdas : ∀ t ∈ κ, ∀ t' ∈ κ, t.lambda = t'.lambda → t = t'

end

variable {C : Converted} {κ κ' : Set Twin} {t : Twin} {w w' wE wE' : World}

theorem Twin.Items.mono {items : Array Value} {captured : Activation} (h : t.Items C κ items captured) (hκ : κ ≤ κ') :
    t.Items C κ' items captured where
  params i p hi := by
    obtain ⟨v, a, j, hv, ha, hstands⟩ := h.params i p hi
    exact ⟨v, a, j, hv, ha, hstands.mono hκ⟩
  nested := h.nested

/-- A twin stays held while closures and instances stay what they are. -/
theorem Twin.Held.mono (h : t.Held C κ w wE) (hκ : κ ≤ κ')
    (hclosures : ∀ (i : Nat) c, w.closures[i]? = some c → w'.closures[i]? = some c)
    (hlambdas : ∀ (i : Nat) l, wE.lambdas[i]? = some l → wE'.lambdas[i]? = some l) : t.Held C κ' w' wE' where
  made := h.made
  lambda := by
    obtain ⟨captured, hl, htokens, hitems⟩ := h.lambda
    refine ⟨captured, hlambdas _ _ hl, htokens, fun r hr => ?_⟩
    obtain ⟨c, hc, hitems⟩ := hitems r hr
    exact ⟨c, hclosures _ _ hc, hitems.mono hκ⟩

namespace Converted.Paired

/-- Both sides come by the same new heap. -/
theorem allocate (h : C.Paired κ w wE) (heap : Heap) : C.Paired κ { w with heap := heap } { wE with heap := heap } where
  heap := rfl
  held t ht := (h.held t ht).mono le_rfl (fun _ _ hc => hc) fun _ _ hl => hl
  closures := h.closures
  lambdas := h.lambdas

/-- A new twin, with a closure and an instance of its own. -/
theorem extend (h : C.Paired κ w wE) (hheap : w'.heap = wE'.heap)
    (hclosures : ∀ (i : Nat) c, w.closures[i]? = some c → w'.closures[i]? = some c)
    (hlambdas : ∀ (i : Nat) l, wE.lambdas[i]? = some l → wE'.lambdas[i]? = some l)
    (ht : t.Held C (insert t κ) w' wE') (hclosure : ∀ r, t.closure = some r → w.closures.size ≤ r.id)
    (hlambda : wE.lambdas.size ≤ t.lambda.id) : C.Paired (insert t κ) w' wE' where
  heap := hheap
  held t' ht' := by
    rcases ht' with rfl | ht'
    · exact ht
    · exact (h.held t' ht').mono (Set.subset_insert t κ) hclosures hlambdas
  closures := by
    have hnew : ∀ t' ∈ κ, ∀ r, t.closure = some r → t'.closure ≠ some r := by
      intro t' ht' r hr hr'
      obtain ⟨captured, -, -, hitems⟩ := (h.held t' ht').lambda
      obtain ⟨c, hc, -⟩ := hitems r hr'
      have := (Array.getElem?_eq_some_iff.1 hc).1
      have := hclosure r hr
      omega
    rintro t₁ (rfl | h₁) t₂ (rfl | h₂) r hr₁ hr₂
    · rfl
    · exact absurd hr₂ (hnew t₂ h₂ r hr₁)
    · exact absurd hr₁ (hnew t₁ h₁ r hr₂)
    · exact h.closures t₁ h₁ t₂ h₂ r hr₁ hr₂
  lambdas := by
    have hnew : ∀ t' ∈ κ, t'.lambda ≠ t.lambda := by
      intro t' ht' heq
      obtain ⟨captured, hl, -⟩ := (h.held t' ht').lambda
      have := (Array.getElem?_eq_some_iff.1 hl).1
      rw [heq] at this
      omega
    rintro t₁ (rfl | h₁) t₂ (rfl | h₂) heq
    · rfl
    · exact absurd heq.symm (hnew t₂ h₂)
    · exact absurd heq (hnew t₁ h₁)
    · exact h.lambdas t₁ h₁ t₂ h₂ heq

/-- A captured variable gets a new value on both sides. No other twin sees it. -/
theorem assign (h : C.Paired κ w wE) (ht : t ∈ κ) {r : ClosureRef} (hr : t.closure = some r) {p : Param} {i : Nat}
    (hi : t.capture.paramIndex? p = some i) {v a : Value} (hv : Stands C κ p.ty v a) :
    ∃ c c', w.closures[r.id]? = some c ∧ c.set i v = .ok c' ∧
      C.Paired κ (w.setClosure r c') (wE.setCaptured t.lambda (t.position p) a) := by
  obtain ⟨captured, hl, htokens, hitems⟩ := (h.held t ht).lambda
  obtain ⟨c, hc, hitems⟩ := hitems r hr
  obtain ⟨v₀, a₀, j, hv₀, ha₀, -⟩ := hitems.params i p hi
  have hlt := (Array.getElem?_eq_some_iff.1 hv₀).1
  have hlt' := (Array.getElem?_eq_some_iff.1 hc).1
  have hset : c.set i v = .ok { c with items := c.items.setIfInBounds i v } := by
    rw [Closure.set, if_pos hlt]
  refine ⟨c, _, hc, hset, h.heap, fun t' ht' => ?_, h.closures, h.lambdas⟩
  rw [t.position_eq htokens ha₀]
  by_cases heq : t' = t
  · -- the twin itself: the item and the captured variable are those of one token
    subst heq
    refine ⟨(h.held t' ht).made, EvalM.setValue captured j a, ?_, ?_, fun r' hr' => ?_⟩
    · simp [World.lambda?, World.setCaptured, Array.getElem?_modify, show wE.lambdas[t'.lambda.id]? = _ from hl]
    · rw [← Array.toList_map, EvalM.map_fst_setValue, Array.toList_map, htokens]
    · rw [hr] at hr'
      cases hr'
      refine ⟨{ c with items := c.items.setIfInBounds i v }, by simp [World.setClosure, hlt'], ⟨fun k q hk => ?_,
        fun k n hk => ?_⟩⟩
      · by_cases hq : q = p
        · subst hq
          rw [hi] at hk
          cases hk
          exact ⟨v, a, j, by simp [hlt], EvalM.innermost_setValue ha₀ a, hv⟩
        · obtain ⟨v', a', j', hv', ha', hstands⟩ := hitems.params k q hk
          have hki : i ≠ k := by
            rintro rfl
            exact hq (Capture.param_of_index hk hi)
          have hjj : j ≠ j' := by
            rintro rfl
            have := ha'.here.symm.trans ha₀.here
            cases this
            exact hq rfl
          exact ⟨v', a', j', by rw [Array.getElem?_setIfInBounds_ne hki]; exact hv',
            EvalM.innermost_setValue_of_ne ha' hjj a, hstands⟩
      · obtain ⟨u, hitem, hn⟩ := hitems.nested k n hk
        refine ⟨u, ?_, hn⟩
        rw [Array.getElem?_setIfInBounds_ne]
        · exact hitem
        · have := Capture.index_lt hi
          omega
  · -- another twin has another instance and another closure
    obtain ⟨captured', hl', htokens', hitems'⟩ := (h.held t' ht').lambda
    have hlambda : t.lambda.id ≠ t'.lambda.id := by
      intro hid
      refine heq (h.lambdas t' ht' t ht ?_)
      rcases t with ⟨_, _, ⟨l⟩⟩
      rcases t' with ⟨_, _, ⟨l'⟩⟩
      cases hid
      rfl
    refine ⟨(h.held t' ht').made, captured', ?_, htokens', fun r' hr' => ?_⟩
    · simp only [World.lambda?, World.setCaptured, Array.getElem?_modify, if_neg hlambda]
      exact hl'
    · obtain ⟨c', hc', hitems'⟩ := hitems' r' hr'
      refine ⟨c', ?_, hitems'⟩
      have hne : r.id ≠ r'.id := by
        intro hid
        refine heq (h.closures t' ht' t ht r ?_ hr)
        rw [hr']
        cases r
        cases r'
        cases hid
        rfl
      simp only [World.setClosure]
      rw [Array.getElem?_setIfInBounds_ne hne]
      exact hc'

end Converted.Paired

end ExprCompiler
