/-
Where code goes another way than the evaluator. Emitted code differs from the evaluator in two points: the overload of
an operator is chosen once, when the code is emitted, and an initialiser goes on with its target as it was before a
store. A run of the evaluator is watched for these points; it stops with an alarm where one of them makes a difference.
A run without an alarm is one of the evaluator, and it is one of the code's way to go.
-/
import ExprCompiler.Proofs.Eval
import ExprCompiler.Proofs.Tree

namespace ExprCompiler

open EvalM

/-! ## Manners of evaluation -/

/-- How a run chooses by the overloads of classes, and what an initialiser goes on with after a store, given its target
before and after. -/
structure Manner where
  choosing {γ : Type} [DecidableEq γ] : (Overloads → γ) → EvalM γ
  keeping : Value → Value → EvalM Value

namespace Manner

/-- The manner of the evaluator. -/
def live : Manner where
  choosing f := return f (← overloads)
  keeping _ after := return after

/-- The manner of code that was emitted with overloads. -/
def emitted (table : Overloads) : Manner where
  choosing f := return f table
  keeping before _ := return before

open Classical in
/-- The manner of the evaluator, with an alarm where that of the code is another. -/
noncomputable def watched (table : Overloads) (alarm : Defect) : Manner where
  choosing f := do
    let now := f (← overloads)
    if now = f table then return now else Act.defect alarm
  keeping before after := if after = before then return after else Act.defect alarm

variable (m : Manner)

def compare (op : CmpOp) (left right : Evaluated) (method : Option Method) : EvalM Value := do
  Eval.compareAs op left right (← m.choosing fun table => CompareForm.choose? table op left.ty right.ty method)

def arith (op : ArithOp) (left right : Evaluated) (checked : Bool) (method : Option Method) : EvalM Value := do
  let l ← left.value
  let r ← right.value
  Eval.arithAs op left.ty right.ty l r
    (← m.choosing fun table => ArithForm.choose? table op left.ty right.ty checked method)

def initialise (target : Value) : List (Binding Evaluated) → EvalM Value
  | [] => return target
  | b :: rest => do
    let v ← b.value.value
    let (after, result) ← Eval.storeMember target b.member v
    MonadExcept.ofExcept result
    initialise (← m.keeping target after) rest

def value (ty : Ty) : Shape Evaluated → EvalM Value
  | .compare op left right method => m.compare op left right method
  | .arith op left right checked method => m.arith op left right checked method
  | .memberInit target bindings => do m.initialise (← target.value) bindings
  | shape => Eval.value ty shape

def place (ty : Ty) (shape : Shape Evaluated) : EvalM (Place EvalVar) :=
  match shape with
  | .compare .. | .arith .. | .memberInit .. => return .root (.temp (← m.value ty shape))
  | shape => Eval.place ty shape

end Manner

/-- The meaning of a tree in a manner of evaluation. -/
def Tree.under (m : Manner) : Tree → Meaning :=
  Tree.fold fun _ ty shape =>
    { value := m.value ty shape
      place := m.place ty shape
      assign := Eval.assign ty shape }

/-- The meaning of a tree to code that was emitted with overloads. -/
abbrev Tree.asCode (ops : Overloads) : Tree → Meaning :=
  Tree.under (.emitted ops)

theorem Tree.under_node (m : Manner) (id : NodeId) (ty : Ty) (s : Shape Tree) : (Tree.node id ty s).under m =
    { value := m.value ty (s.map (.of (Tree.under m)))
      place := m.place ty (s.map (.of (Tree.under m)))
      assign := Eval.assign ty (s.map (.of (Tree.under m))) } := by
  rw [Tree.under, Tree.fold_node]

namespace Manner

theorem initialise_live (target : Value) (bs : List (Binding Evaluated)) :
    live.initialise target bs = Eval.initialise target bs := by
  induction bs generalizing target with
  | nil => rfl
  | cons b rest ih =>
    simp only [initialise, Eval.initialise, live, pure_bind]
    simp only [← ih]
    rfl

theorem value_live (ty : Ty) (s : Shape Evaluated) : live.value ty s = Eval.value ty s := by
  cases s with
  | compare op l r m => simp only [value, compare, live, bind_assoc, pure_bind]; rfl
  | arith op l r checked m => simp only [value, arith, live, bind_assoc, pure_bind]; rfl
  | memberInit t bs => simp only [value, initialise_live]; rfl
  | _ => rfl

end Manner

/-- The evaluator's own manner. -/
theorem Tree.under_live : Tree.under .live = Tree.meaning := by
  unfold Tree.under Tree.meaning
  congr 1
  funext id ty s
  congr 1
  · exact Manner.value_live ty s
  · cases s with
    | compare op l r m | arith op l r checked m | memberInit t bs => simp only [Manner.place, Manner.value_live]; rfl
    | _ => rfl

/-! ## Runs without an alarm -/

/-- One meaning comes to what another comes to, unless it stops with a defect. -/
structure Meaning.Follows (d : Defect) (m m' : Meaning) : Prop where
  value : EvalM.Follows d m.value m'.value
  place : EvalM.Follows d m.place m'.place
  assign : ∀ {x y}, EvalM.Follows d x y → EvalM.Follows d (m.assign x) (m'.assign y)

structure Manner.Follows (d : Defect) (m m' : Manner) : Prop where
  choosing : ∀ {γ : Type} [DecidableEq γ] (f : Overloads → γ), EvalM.Follows d (m.choosing f) (m'.choosing f)
  keeping : ∀ before after, EvalM.Follows d (m.keeping before after) (m'.keeping before after)

theorem Manner.watched_follows_live (table : Overloads) (d : Defect) : (watched table d).Follows d live where
  choosing _ := (EvalM.Follows.refl _).bind fun _ => .alarm fun _ => .refl _
  keeping _ _ := .alarm fun _ => .refl _

theorem Manner.watched_follows_emitted (table : Overloads) (d : Defect) :
    (watched table d).Follows d (emitted table) where
  choosing f ctx s := by
    simp only [watched]
    rw [Act.bind_ok (overloads_apply ctx s)]
    exact EvalM.Follows.alarm (fun h => by rw [h]; exact .refl _) ctx s
  keeping _ _ := .alarm fun h => by rw [h]; exact .refl _

section

variable {d : Defect} {f g : Tree → Meaning} {t : Tree} {ts : List Tree} {ty : Ty}

namespace Evaluated

theorem follows_valueAs (h : (f t).Follows d (g t)) (ty : Ty) :
    EvalM.Follows d (valueAs (.of f t) ty) (valueAs (.of g t) ty) :=
  h.value.bind fun _ => .refl _

theorem follows_receiver (h : (f t).Follows d (g t)) :
    EvalM.Follows d (receiver (.of f t)) (receiver (.of g t)) := by
  simp only [receiver, Tree.Child.ty_of]
  exact .choice h.place (h.value.bind fun _ => .refl _)

end Evaluated

namespace Eval

open Evaluated

theorem follows_values (h : ∀ t ∈ ts, (f t).Follows d (g t)) :
    EvalM.Follows d (values (ts.map (.of f))) (values (ts.map (.of g))) := by
  simp only [values, List.mapM_map]
  exact .values ts fun t ht => (h t ht).value

theorem follows_statements (ty : Ty) : ∀ {ts : List Tree}, (∀ t ∈ ts, (f t).Follows d (g t)) →
    EvalM.Follows d (statements ty (ts.map (.of f))) (statements ty (ts.map (.of g)))
  | [], _ => .refl _
  | [t], h => (follows_valueAs (h t (by simp)) ty).bind fun _ => .refl _
  | t :: _ :: _, h => (h t (by simp)).value.bind fun _ =>
    follows_statements ty fun u hu => h u (List.mem_cons_of_mem t hu)

theorem follows_accepted {exn : Value} {c : CatchClause Tree} (h : ∀ t ∈ c.filter, (f t).Follows d (g t)) :
    EvalM.Follows d (accepted? exn (c.map (.of f))) (accepted? exn (c.map (.of g))) := by
  obtain ⟨test, var, filter, body⟩ := c
  refine .choice (.refl _) ?_
  cases filter with
  | none => exact .refl _
  | some t => exact .inScope _ (h t rfl).value fun _ => rfl

theorem follows_handle (ty : Ty) (exn : Value) : ∀ {cs : List (CatchClause Tree)},
    (∀ c ∈ cs, ∀ t ∈ c.children, (f t).Follows d (g t)) →
    EvalM.Follows d (handle ty exn (cs.map (CatchClause.map (.of f))))
    (handle ty exn (cs.map (CatchClause.map (.of g))))
  | [], _ => .refl _
  | c :: cs, h => by
    have hc := h c List.mem_cons_self
    refine (follows_accepted fun t ht => hc t (by simp [CatchClause.children, Option.mem_def.1 ht])).bind fun vars => ?_
    cases vars with
    | some vars => exact .catching exn vars (follows_valueAs (hc c.body (by simp [CatchClause.children])) ty)
    | none => exact follows_handle ty exn fun c' hc' => h c' (List.mem_cons_of_mem c hc')

theorem follows_guarded (ty : Ty) {body : Tree} {cs : List (CatchClause Tree)} {final : Option Tree}
    (h : ∀ t ∈ (Shape.guarded body cs final).children, (f t).Follows d (g t)) :
    EvalM.Follows d (guarded ty (.of f body) (cs.map (CatchClause.map (.of f))) (final.map (.of f)))
      (guarded ty (.of g body) (cs.map (CatchClause.map (.of g))) (final.map (.of g))) := by
  have hhandle : ∀ exn, EvalM.Follows d (Act.caught (handle ty exn (cs.map (CatchClause.map (.of f)))))
      (Act.caught (handle ty exn (cs.map (CatchClause.map (.of g))))) := by
    refine fun exn => .caught (follows_handle ty exn fun c hc t ht => h t ?_)
    simp only [Shape.children, List.mem_append, List.mem_cons, List.mem_flatMap]
    exact .inl (.inr ⟨c, hc, ht⟩)
  refine (EvalM.Follows.caught (follows_valueAs (h body (by simp)) ty)).bind fun r => ?_
  cases final with
  | none =>
    cases r with
    | ok v => exact .refl _
    | error exn => exact (hhandle exn).bind fun _ => .refl _
  | some t =>
    have hlast := (h t (by simp)).value
    cases r with
    | ok v => exact (EvalM.Follows.refl _).bind fun _ => hlast.bind fun _ => .refl _
    | error exn => exact (hhandle exn).bind fun _ => hlast.bind fun _ => .refl _

end Eval

namespace Manner

open Eval Evaluated

variable {m m' : Manner}

theorem follows_initialise (hm : m.Follows d m') : ∀ {bs : List (Binding Tree)} (target : Value),
    (∀ b ∈ bs, (f b.value).Follows d (g b.value)) → EvalM.Follows d
      (m.initialise target (bs.map (Binding.map (.of f)))) (m'.initialise target (bs.map (Binding.map (.of g))))
  | [], _, _ => .refl _
  | b :: _, _, h => (h b List.mem_cons_self).value.bind fun _ => (EvalM.Follows.refl _).bind fun _ =>
    (EvalM.Follows.refl _).bind fun _ => (hm.keeping _ _).bind fun _ =>
      follows_initialise hm _ fun b' hb => h b' (List.mem_cons_of_mem b hb)

/-- Nodes follow each other if their children do. -/
theorem follows_value (hm : m.Follows d m') {s : Shape Tree} (ty : Ty) (h : ∀ t ∈ s.children, (f t).Follows d (g t)) :
    EvalM.Follows d (m.value ty (s.map (.of f))) (m'.value ty (s.map (.of g))) := by
  cases s with
  | constant v | parameter p | default | lambda ps body name => exact .refl _
  | convert e checked m | unary op e checked => exact (h e (by simp)).value.bind fun _ => .refl _
  | arrayIndex a i => exact (h a (by simp)).value.bind fun _ => (h i (by simp)).value.bind fun _ => .refl _
  | call r m args =>
    have hargs : EvalM.Follows d (values (args.map (.of f))) (values (args.map (.of g))) :=
      follows_values fun t ht => h t (by simp [ht])
    simp only [Shape.map, value, Eval.value, callMethod]
    cases r with
    | none =>
      cases m.isStatic with
      | true => exact hargs.bind fun _ => .refl _
      | false => exact .refl _
    | some r =>
      cases m.isStatic with
      | true => exact .refl _
      | false => exact (follows_receiver (h r (by simp))).bind fun _ => hargs.bind fun _ => .refl _
  | member r m =>
    cases r with
    | none => exact .refl _
    | some r =>
      cases m with
      | static s => exact .refl _
      | field c i | property p => exact (h r (by simp)).value.bind fun _ => .refl _
  | new ctor args | newArray elem items => exact (follows_values fun t ht => h t ht).bind fun _ => .refl _
  | newArrayOfLength elem n => exact (h n (by simp)).value.bind fun _ => .refl _
  | memberInit t bs =>
    refine (h t (by simp)).value.bind fun v => follows_initialise hm v fun b hb => h b.value ?_
    exact List.mem_cons_of_mem t (List.mem_map_of_mem hb)
  | invoke t args =>
    exact (h t (by simp)).value.bind fun _ => (follows_values fun t ht => h t (by simp [ht])).bind fun _ => .refl _
  | compare op l r m =>
    refine (hm.choosing _).bind fun form => ?_
    cases form with
    | none => exact .refl _
    | some form => exact (h l (by simp)).value.bind fun _ => (h r (by simp)).value.bind fun _ => .refl _
  | arith op l r checked m =>
    exact (h l (by simp)).value.bind fun _ => (h r (by simp)).value.bind fun _ => (hm.choosing _).bind fun _ => .refl _
  | logical op l r => exact (h l (by simp)).value.bind fun _ => .choice (.refl _) (h r (by simp)).value
  | coalesce l r =>
    exact (h l (by simp)).value.bind fun _ => .choice (follows_valueAs (h r (by simp)) ty) (.refl _)
  | cond t a b =>
    refine (h t (by simp)).value.bind fun v => ?_
    cases v.isTrue with
    | true => exact (follows_valueAs (h a (by simp)) ty).bind fun _ => .refl _
    | false => exact (follows_valueAs (h b (by simp)) ty).bind fun _ => .refl _
  | assign t v => exact (h t (by simp)).assign (h v (by simp)).value
  | block vars body => exact .within _ (follows_statements ty fun t ht => h t ht)
  | guarded body cs final => exact follows_guarded ty h
  | throw e =>
    cases e with
    | none => exact .refl _
    | some t => exact (h t (by simp)).value.bind fun _ => .refl _
  | index r ix args =>
    exact (h r (by simp)).value.bind fun _ => (follows_values fun t ht => h t (by simp [ht])).bind fun _ => .refl _

theorem follows_place (hm : m.Follows d m') {s : Shape Tree} (ty : Ty) (h : ∀ t ∈ s.children, (f t).Follows d (g t)) :
    EvalM.Follows d (m.place ty (s.map (.of f))) (m'.place ty (s.map (.of g))) := by
  have hvalue : EvalM.Follows d (m.value ty (s.map (.of f)) >>= fun v => pure (Place.root (EvalVar.temp v)))
      (m'.value ty (s.map (.of g)) >>= fun v => pure (Place.root (EvalVar.temp v))) :=
    (follows_value hm ty h).bind fun _ => .refl _
  cases s with
  | parameter p => exact .refl _
  | arrayIndex a i => exact (h a (by simp)).value.bind fun _ => (h i (by simp)).value.bind fun _ => .refl _
  | member r mem =>
    cases r with
    | none => exact hvalue
    | some r =>
      cases mem with
      | static s | property p => exact hvalue
      | field c i =>
        exact .choice ((h r (by simp)).place.bind fun _ => .refl _) ((h r (by simp)).value.bind fun _ => .refl _)
  | _ => exact hvalue

theorem follows_assign {s : Shape Tree} (ty : Ty) (h : ∀ t ∈ s.children, (f t).Follows d (g t)) {x y : EvalM Value}
    (hxy : EvalM.Follows d x y) :
    EvalM.Follows d (Eval.assign ty (s.map (.of f)) x) (Eval.assign ty (s.map (.of g)) y) := by
  cases s with
  | parameter p => exact (EvalM.Follows.refl _).bind fun _ => hxy.bind fun _ => .refl _
  | member r mem =>
    cases r with
    | none =>
      cases mem with
      | static s => exact hxy.bind fun _ => .refl _
      | _ => exact .refl _
    | some r =>
      refine .choice (.refl _) (.choice (.refl _) ?_)
      exact (follows_receiver (h r (by simp))).bind fun _ => hxy.bind fun _ => .refl _
  | arrayIndex a i =>
    have ha := (h a (by simp)).value
    have hi := (h i (by simp)).value
    refine .choice ?_ (ha.bind fun _ => hi.bind fun _ => hxy.bind fun _ => .refl _)
    exact EvalM.Follows.bind (ha.bind fun _ => hi.bind fun _ => .refl _) fun _ => hxy.bind fun _ => .refl _
  | index r ix args =>
    simp only [Shape.map, Eval.assign]
    cases ix.setter with
    | none => exact .refl _
    | some set =>
      refine (follows_receiver (h r (by simp))).bind fun _ => ?_
      exact (follows_values fun t ht => h t (by simp [ht])).bind fun _ => hxy.bind fun _ => .refl _
  | _ => exact .refl _

end Manner

/-- Where manners of evaluation follow each other, runs of a tree do. -/
theorem Tree.follows_under {m m' : Manner} (hm : m.Follows d m') (t : Tree) : (t.under m).Follows d (t.under m') := by
  induction t using Tree.induct with
  | node id ty s ih =>
    rw [under_node, under_node]
    exact ⟨Manner.follows_value hm ty ih, Manner.follows_place hm ty ih, Manner.follows_assign ty ih⟩

end

/-- In a run of a tree, no store of an initialiser changes the target, and operators are chosen as `table` says. -/
def Tree.Undisturbed (table : Overloads) (lib : Library) (inv : Invoker) (t : Tree) (params : List Param)
    (args : List Value) (w : World) : Prop :=
  ∃ alarm, (Eval.binding lib inv none "expression" params args
    (Evaluated.valueAs (.of (Tree.under (.watched table alarm)) t) t.ty) w).1 ≠ .error (.defect alarm)

/-- A run without an alarm is one in the manner of the code and one of the evaluator. -/
theorem Tree.Undisturbed.asCode_eq {table : Overloads} {lib : Library} {inv : Invoker} {t : Tree} {params : List Param}
    {args : List Value} {w : World} (h : t.Undisturbed table lib inv params args w) :
    Eval.binding lib inv none "expression" params args (Evaluated.valueAs (.of (Tree.asCode table) t) t.ty) w =
      Eval.evaluate lib inv t params args w := by
  obtain ⟨d, hd⟩ := h
  have hfollows : ∀ {m : Manner}, (Manner.watched table d).Follows d m → EvalM.Follows d
      (Evaluated.valueAs (.of (Tree.under (.watched table d)) t) t.ty)
        (Evaluated.valueAs (.of (Tree.under m) t) t.ty) :=
    fun hm => Evaluated.follows_valueAs (Tree.follows_under hm t) t.ty
  rw [Eval.evaluate, Eval.activate, ← Tree.under_live,
    ← Eval.binding_follows (hfollows (Manner.watched_follows_live table d)) hd,
    ← Eval.binding_follows (hfollows (Manner.watched_follows_emitted table d)) hd]

end ExprCompiler
