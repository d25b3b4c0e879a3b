/-
Compiled code refines the evaluator on the first-order language. Main statement: a unit that is compiled from
a tree without lambdas, captured constants and structs comes to what the evaluator comes to on the same
arguments in the same world, value or exception, and leaves the same world, in every run in which no store of an
initialiser changes its target and no operator has come to be overloaded otherwise. The proof is an induction over
the tree, which gives each node the rule of its kind, and a last step from the code of the body to a call of the unit.
-/
import ExprCompiler.Invoke
import ExprCompiler.Proofs.Compile.Analysis
import ExprCompiler.Proofs.FirstOrder.Guarded
import ExprCompiler.Proofs.Simulation.Units

namespace ExprCompiler

/-! ## The first-order language -/

/-- A node that needs nothing from a closure. -/
def Shape.isFirstOrder : Shape Tree → Bool
  | .lambda _ _ _ => false
  | .constant v => v.isImmediate
  | _ => true

/-- No node of a tree is a lambda or a constant that does not fit into an instruction. -/
def Tree.Captureless : Tree → Prop :=
  Tree.All fun _ _ s => s.isFirstOrder = true

/-- No node of a tree is a lambda, a constant that does not fit into an instruction, or of a struct type. -/
def Tree.FirstOrder : Tree → Prop :=
  Tree.All fun _ ty s => s.isFirstOrder = true ∧ ty.isStruct = false

theorem Tree.FirstOrder.ty {t : Tree} (h : t.FirstOrder) : t.ty.isStruct = false := by
  obtain ⟨id, ty, s⟩ := t
  exact h.root.2

namespace Same

open EmitM Bridge

variable {S : Setting} {ctx : EmitContext} {ty ty' : Ty}
  {usage : Usage}

/-! ## Nodes -/

/-- A unit of the first-order language, around any of its nodes. -/
structure Around (S : Setting) (ctx : EmitContext) : Prop where
  operators : ctx.operators = S.operators
  layout : ctx.layout = none

theorem Around.enter (h : Around S ctx) (scope : List (Param × Nat)) (hidden : List Nat) :
    Around S (ctx.enter scope hidden) :=
  ⟨h.operators, h.layout⟩

theorem Around.not_captures (h : Around S ctx) (p : Param) (slot : Nat) : ¬ ctx.Captures p slot := by
  rintro ⟨-, i, l, -, hl, -⟩
  rw [h.layout] at hl
  cases hl

variable (S) in
/-- The codes of a tree simulate its meanings. -/
structure Simulated (t : Tree) : Prop where
  used : ∀ {ctx}, Around S ctx → ∀ usage, (same S).Used ctx usage t
  assigned : ∀ {ctx}, Around S ctx → ∀ {source : EmitM Unit} {e : EvalM Value} {ty : Ty} (usage : Usage),
    (same S).Code ctx [] 1 source e (fun a => [(ty, a)]) →
    (same S).Code ctx [] usage.count (t.emission.assign source usage) ((S.meaning t).assign e) (usage.leaves t.ty)
  void : t.ty.isVoid = true → ∀ ctx b, ∃ d, Emitted.value (.of Tree.emission t) ctx b = .error (.declined d)

/-- Types do not matter to what a value stands for. -/
theorem retype {before : List (Ty × Value)} {x : EmitM Unit} {e : EvalM Value}
    (h : (same S).Code ctx before usage.count x e (usage.leaves ty)) :
    (same S).Code ctx before usage.count x e (usage.leaves ty') := by
  refine h.mono (fun κ vs hvs => hvs) fun κ a vs hvs => ?_
  cases usage with
  | discard => exact hvs
  | value =>
    obtain ⟨v, rfl, hv⟩ := Holds.one hvs
    exact .cons hv .nil

theorem used_node {id : NodeId} {s : Shape Tree} (hT : S.Tame) (hw : s.WellFormed S.operators ty)
    (hfirst : s.isFirstOrder = true) (hstruct : ∀ c ∈ s.children, c.ty.isStruct = false)
    (hc : ∀ c ∈ s.children, Simulated S c) (hctx : Around S ctx) (hu : usage = .value → ty.isVoid = false) :
    (same S).Code ctx [] usage.count (Emit.used id ty (s.map (.of Tree.emission)) usage)
      ((Manner.emitted S.operators).value ty (s.map (.of S.meaning))) (usage.leaves ty) := by
  have hused : ∀ t ∈ s.children, ∀ usage, (same S).Used ctx usage t := fun t ht => (hc t ht).used hctx
  have hvalue : ∀ t ∈ s.children, (same S).Used ctx .value t := fun t ht => hused t ht .value
  have hsettled : ∀ {x : EmitM Unit} {e : EvalM Value}, (same S).Code ctx [] ty.count x e ty.leaves →
      (same S).Code ctx [] usage.count (do x; settle usage ty) e (usage.leaves ty) :=
    fun hx => Code.settle hx hu
  have hsettled_one : ∀ {x : EmitM Unit} {e : EvalM Value}, ty.isVoid = false →
      (same S).Code ctx [] 1 x e (fun a => [(ty, a)]) →
      (same S).Code ctx [] usage.count (do x; settle usage ty) e (usage.leaves ty) := by
    intro x e hv hx
    refine hsettled ?_
    rw [Ty.count_eq_one hv, funext (Ty.leaves_of_not_isVoid hv)]
    exact hx
  cases s with
  | constant v => exact Code.wanted (constant hfirst id)
  | lambda ps body name => cases hfirst
  | default => exact Code.wanted (default ty)
  | parameter p => exact retype (Used.parameter fun slot hcap => absurd hcap (hctx.not_captures p slot))
  | convert e checked m =>
    refine hsettled (convert hT (hvalue e (by simp)) (fun g hg => ?_) fun hn => ?_)
    · obtain rfl : m = some g := hg
      exact hw
    · subst hn
      exact hw
  | arrayIndex a i =>
    exact hsettled_one hw (arrayIndex hT (hvalue a (by simp)) (hvalue i (by simp)))
  | call r m args =>
    refine hsettled (call hT (fun t ht => hvalue t ?_) (fun t ht => hstruct t ?_) (fun t ht => hvalue t ?_) hw.1 hw.2)
    · simp [Option.mem_def.1 ht]
    · simp [Option.mem_def.1 ht]
    · simp [ht]
  | member r m =>
    refine hsettled_one hw (readMember hT (fun t ht => hvalue t ?_) fun t ht => hstruct t ?_)
    · simp [Option.mem_def.1 ht]
    · simp [Option.mem_def.1 ht]
  | new ctor args => exact hsettled_one hw.2 (new hT (fun t ht => hvalue t ht) hw.1)
  | newArray elem items => exact hsettled_one hw (newArray hT fun t ht => hvalue t ht)
  | newArrayOfLength elem n => exact hsettled_one hw (newArrayOfLength hT (hvalue n (by simp)))
  | memberInit t bs =>
    refine memberInit hT (hvalue t (by simp)) (hstruct t (by simp)) (fun hv b => ?_)
      fun b hb => hvalue b.value ?_
    · exact (hc t (by simp)).void hv ctx b
    · exact List.mem_cons_of_mem t (List.mem_map.2 ⟨b, hb, rfl⟩)
  | invoke t args =>
    exact hsettled (invoke hT (hvalue t (by simp)) fun a ha => hvalue a (by simp [ha]))
  | compare op l r m =>
    exact hsettled (compare hT hctx.operators (hvalue l (by simp)) (hvalue r (by simp)) hw)
  | arith op l r checked m =>
    exact hsettled (arith hT hctx.operators (hvalue l (by simp)) (hvalue r (by simp)) hw)
  | unary op e checked => exact hsettled_one hw (unaryOp hT (hvalue e (by simp)))
  | logical op l r =>
    exact hsettled_one hw (Used.logical (hvalue l (by simp)) (hvalue r (by simp))
      (tests _) (widens _ _) (widens _ _))
  | coalesce l r =>
    exact hsettled_one hw (coalesce hT hw (hvalue l (by simp)) (hused r (by simp)))
  | cond t a b =>
    exact Used.cond hu (hasZero ty) (hvalue t (by simp)) (tests _) (hused a (by simp))
      (widens _ _) (hused b (by simp)) (widens _ _)
  | assign t v =>
    exact retype ((hc t (by simp)).assigned hctx usage (hvalue v (by simp)).value)
  | block vars body =>
    have hbody : ∀ scope : List (Param × Nat), ∀ t ∈ body, ∀ usage,
        (same S).Used (ctx.enter scope []) usage t := fun scope t ht => (hc t ht).used (hctx.enter scope [])
    refine Used.block hu (hasZero ty) (fun p _ => hasZero p.ty) (fun scope => ?_) (fun scope _ => hbody scope)
      fun t _ =>
      widens _ _
    exact (Used.statements hu (hasZero ty) (hbody scope) fun t _ => widens _ _).emits
  | guarded body cs final =>
    have hclause : ∀ c ∈ cs, ∀ scope hidden, (same S).Code (ctx.enter scope [hidden]) [] usage.count
        (Emitted.valueAs (.of Tree.emission c.body) ty usage) (Evaluated.valueAs (.of S.meaning c.body) ty)
        (usage.leaves ty) := fun c hmem scope hidden =>
      Used.valueAs ((hc c.body (Shape.body_mem_children hmem)).used (hctx.enter scope [hidden])) (widens _ _)
        (hasZero ty) hu
    refine guarded hu ?_ (fun c hmem scope hidden _ => hclause c hmem scope hidden)
      (fun c hmem scope hidden => (hclause c hmem scope hidden).emits) fun t ht => hused t ?_ .discard
    · exact Used.valueAs (hused body (by simp)) (widens _ _) (hasZero ty) hu
    · simp [Option.mem_def.1 ht]
  | throw e =>
    refine throwing hT fun t ht => hvalue t ?_
    simp [Option.mem_def.1 ht]
  | index r ix args =>
    exact hsettled_one hw.2 (index hT (hvalue r (by simp)) (hstruct r (by simp))
      (fun t ht => hvalue t (by simp [ht])) hw.1)

theorem assigned_node {s : Shape Tree} {source : EmitM Unit} {e : EvalM Value} (hT : S.Tame)
    (hw : s.WellFormed S.operators ty) (hty : ty.isStruct = false) (hstruct : ∀ c ∈ s.children, c.ty.isStruct = false)
    (hc : ∀ c ∈ s.children, Simulated S c) (hctx : Around S ctx)
    (hs : ∀ ty, (same S).Code ctx [] 1 source e fun a => [(ty, a)]) :
    (same S).Code ctx [] usage.count (Emit.assign ty (s.map (.of Tree.emission)) source usage)
      (Eval.assign ty (s.map (.of S.meaning)) e) (usage.leaves ty) := by
  have hvalue : ∀ t ∈ s.children, (same S).Used ctx .value t := fun t ht => (hc t ht).used hctx .value
  cases s with
  | parameter p =>
    exact retype (Code.assignParameter (hs p.ty) fun slot hcap => absurd hcap (hctx.not_captures p slot))
  | member r m =>
    cases r with
    | none =>
      cases m with
      | static s => exact assignStatic hT (hs ty)
      | field cls i | property p => exact Sim.decline _
    | some r =>
      unfold Emit.assign Eval.assign
      simp only [Shape.map, Option.map_some]
      cases hm : m.isStatic with
      | true => exact Sim.decline _
      | false =>
        cases hwrite : m.isWritable with
        | false =>
          refine Sim.of_refused (.bind (.check fun _ => Emit.isOfCode_describe) fun _ => .decline _) fun b b' hrun => ?_
          obtain ⟨d, b₁, -, hno⟩ := EmitM.bind_eq_ok hrun
          cases hno
        | true =>
          exact assignMember hT hm (hvalue r (by simp)) (hstruct r (by simp)) (hs ty)
  | arrayIndex a i =>
    unfold Emit.assign Eval.assign
    simp only [Shape.map, hty]
    exact assignElement hT (hvalue a (by simp)) (hvalue i (by simp)) (hs ty)
  | index r ix args =>
    unfold Emit.assign Eval.assign
    simp only [Shape.map]
    rcases hset : ix.setter with _ | set
    · exact Sim.declined _ _
    · exact assignIndex hT hset (hvalue r (by simp)) (hstruct r (by simp))
        (fun t ht => hvalue t (by simp [ht])) hw.1 (hs ty)
  | _ => exact Sim.decline _

/-- The codes of a tree of the first-order language simulate its meanings. -/
theorem simulated {t : Tree} (hT : S.Tame) (hw : t.WellFormed S.operators) (hfirst : t.FirstOrder) :
    Simulated S t := by
  induction t using Tree.induct with
  | node id ty s ih =>
    have hc : ∀ c ∈ s.children, Simulated S c := fun c hc =>
      ih c hc (hw.children c hc) (hfirst.children c hc)
    have hstruct : ∀ c ∈ s.children, c.ty.isStruct = false := fun c hc => Tree.FirstOrder.ty (hfirst.children c hc)
    refine ⟨fun hctx usage => ?_, fun {ctx} hctx {source e ty'} usage hs => ?_, fun hv ctx b => ?_⟩
    · rw [Used, Tree.emission, Tree.fold_node, show (same S).meaning (.node id ty s) = _ from Tree.under_node _ id ty s]
      refine Sim.ite (fun _ => .decline _) fun hu => ?_
      exact used_node hT hw.root hfirst.root.1 hstruct hc hctx fun hvalue => by simpa [hvalue] using hu
    · rw [Tree.emission, Tree.fold_node, show S.meaning (.node id ty s) = _ from Tree.under_node _ id ty s]
      have hs : (same S).Code ctx [] Usage.value.count source e (Usage.value.leaves ty') := hs
      exact assigned_node hT hw.root hfirst.root.2 hstruct hc hctx fun _ => retype hs
    · refine ⟨.unsupported .voidValue, ?_⟩
      show (Tree.emission (.node id ty s)).value .value ctx b = _
      rw [Tree.emission, Tree.fold_node]
      exact congrFun₂ (Emit.value_of_isVoid hv _) ctx b

/-! ## Units -/

/-- What a unit returns is the value of its body. -/
theorem result {t : Tree} (hS : Simulated S t) (hctx : Around S ctx) :
    (same S).Code ctx [] 1 (Emit.result t t.ty) (Evaluated.valueAs (.of S.meaning t) t.ty)
      fun a => [(t.ty, a)] := by
  unfold Emit.result
  cases hv : t.ty.isVoid with
  | false =>
    have hvalue : (same S).Code ctx [] Usage.value.count _ _ (Usage.value.leaves t.ty) :=
      Used.valueAs (hS.used hctx) (widens _ _) (hasZero t.ty) fun _ => hv
    exact hvalue
  | true =>
    have hzero : t.ty.zero = .null := by
      rcases hty : t.ty <;> rw [hty] at hv <;> cases hv
      rfl
    simp only [if_true]
    refine Sim.bind (hS.used hctx .discard).discard fun a => ?_
    refine Sim.shuffle rfl (.emit (.const .null) rfl) rfl fun κ vs _ hvs => ?_
    cases hvs
    refine ⟨[.null], MachineM.shuffles_const .null, rfl, ?_⟩
    rw [Tree.Child.ty_of, if_pos hv, hzero]
    exact .cons ⟨rfl, .null⟩ .nil

theorem interpret_eq {t : Tree} {name : String} {params : List Param} {capture : Capture} {u : CodeUnit}
    {args : List Value} {w : World} {fuel : Nat} (hS : Simulated S t)
    (hunit : Emit.unit S.operators name t params t.ty capture none = .ok u) (hnodup : params.Nodup)
    (hfew : params.length < Nat.pow 2 16) (hlocals : u.locals.size ≤ Nat.pow 2 16) (hlen : args.length = params.length)
    (hargs : ∀ v ∈ args, v.Portable S.F) (hw : S.I w) (hfuel : u.instrs.size ≤ fuel) :
    u.interpret ⟨S.lib, S.inv, none⟩ fuel args w =
      Eval.binding S.lib S.inv none "expression" params args (Evaluated.valueAs (.of S.meaning t) t.ty) w := by
  have hctx : Around S { operators := S.operators, params, capture, layout := none } := ⟨rfl, rfl⟩
  have hresult := result hS hctx
  obtain ⟨b, b', D, D', hcode⟩ := Emit.unit_inv hresult.emits hunit
  have hsim : (same S).Sim { operators := S.operators, params, capture, layout := none } 0 1
      (fun _ vs => vs = []) (Emit.result t t.ty) (Evaluated.valueAs (.of S.meaning t) t.ty)
      fun _ a vs => ∃ v, vs = [v] ∧ v = a := by
    refine hresult.mono (fun κ vs hvs => hvs ▸ .nil) fun κ a vs hvs => ?_
    obtain ⟨v, rfl, hv, -⟩ := Holds.one hvs
    exact ⟨v, rfl, hv⟩
  have hframe : (u.frame none args).stack = [] ∧ (u.frame none args).pending = [] ∧
      (u.frame none args).locals.size = u.locals.size := ⟨rfl, rfl, by simp [CodeUnit.frame]⟩
  have hcorr : (same S).Corresponds { operators := S.operators, params, capture, layout := none } () []
      (u.frame none args) (params.zip args).toArray := by
    refine corresponds_start rfl hlen hlen fun i p v a _ hv ha => ?_
    rw [hv] at ha
    cases ha
    exact ⟨rfl, hargs v (List.mem_of_getElem? hv)⟩
  have hreturns := (run_returns hcode hsim hlocals (fits_start hnodup hfew) hframe hcorr ⟨rfl, hw⟩
    (.inr hfuel)).resolve_left not_excused
  have hrun : u.interpret ⟨S.lib, S.inv, none⟩ fuel args w =
      u.run (same S).machine fuel ⟨0, u.frame none args, w⟩ := rfl
  rw [hrun, Eval.binding_eq hlen.symm]
  show _ = ((Evaluated.valueAs (.of S.meaning t) t.ty ((same S).eval []) ((params.zip args).toArray, w)).1,
    (Evaluated.valueAs (.of S.meaning t) t.ty ((same S).eval []) ((params.zip args).toArray, w)).2.2)
  rcases hval : Evaluated.valueAs (.of S.meaning t) t.ty ((same S).eval [])
    ((params.zip args).toArray, w) with ⟨stop | v, vars', w'⟩ <;> rw [hval] at hreturns
  · obtain ⟨κ', stop', -, hstop, rfl, hworld, -⟩ := hreturns
    exact Prod.ext hstop hworld
  · obtain ⟨κ', v', -, hv, rfl, hworld, -⟩ := hreturns
    exact Prod.ext hv hworld

end Same

/-! ## Captures -/

namespace Analyze

open CompileM

variable {c : Compiler}

/-- The analysis of a tree without lambdas and large constants finds nothing to capture but parameters. -/
theorem walks_captureless : Walks (fun id => id) Tree.Captureless fun _ x _ => ∀ scope capture s,
    Promise.nothing.Kept c s (x scope capture) fun r _ => capture.Grows [] [] r.2 where
  nil _ capture _ := .of_pure (.refl capture)
  append hx hy scope capture s := (hx scope capture s).bind fun r s' _ hr =>
    (hy scope r.2 s').mono fun _ _ _ hr' => hr.trans hr'
  within _ _ _ _ hx _ capture s := hx _ capture s
  decline _ _ _ _ _ _ _ := .decline _
  child h ht := h.children _ ht
  constant {_ _ v} h scope capture s := by
    have himm : v.isImmediate = true := h.root
    rw [constant_apply, if_pos himm]
    exact .of_pure (.refl capture)
  parameter _ scope capture s := by
    rw [addParam_apply]
    exact .of_pure (.capturing scope.declares capture _)
  lambda h _ := by cases h.root
  inner _ _ hx := hx

end Analyze

/-- A call of an artifact without a closure runs its unit on the machine. -/
theorem Program.invokeArtifact_bare {p : Program} {ref : UnitRef} {u : CodeUnit} {params : List Param}
    {args : List Value} {fuel : Nat} {w : World} (hu : p.units[ref.id]? = some u)
    (hparams : u.params = params.map Param.ty) (hlayout : u.layout = none) (hnative : u.native = none)
    (hlen : args.length = params.length) :
    p.invokeArtifact (fuel + 1) (.bare ref) args w = u.interpret ⟨p.library, p.invoke fuel, none⟩ fuel args w := by
  have harity : args.length = u.arity := by
    rw [CodeUnit.arity, hparams, hlen, List.length_map]
  rw [invokeArtifact, invoke]
  simp only [hu, CodeUnit.invoke, harity, hlayout, hnative, ne_eq, not_true_eq_false, if_false, Option.isSome_none,
    Option.bind_none]

namespace CompileM

variable {c : Compiler} {s s' : Session} {t : Tree} {params : List Param} {a : Artifact}

/-- A tree without lambdas and large constants is compiled to a unit without a closure. -/
theorem compile_bare (ht : t.Captureless) (hn : c.settings.nativeEnabled = false)
    (h : compile t params none c s = (.ok a, s')) :
    ∃ ref capture u, a = .bare ref ∧ s'.units[ref.id]? = some u ∧
      Emit.unit c.operators "root" t params t.ty capture none = .ok u := by
  obtain ⟨capture, ret, hroot⟩ := root_inv h
  cases hroot.result
  have hgrows : ({} : Capture).Grows [] [] capture := by
    obtain ⟨s₁, -, -, ⟨s₀, hanalysis⟩, -⟩ := hroot.found
    exact ((Analyze.walks_captureless.analysis ht ⟨params, []⟩ {} s₀).result hanalysis).2
  have hconstants : capture.constants = [] :=
    List.eq_nil_iff_forall_not_mem.2 fun r hr => by simpa using hgrows.constants r hr
  have hnested : capture.nested = [] :=
    List.eq_nil_iff_forall_not_mem.2 fun n hn => by simpa using hgrows.nested n hn
  have hlayout : capture.layout? c.settings.fixedFieldLimit = none := by
    simp [Capture.layout?, Capture.isEmpty, Capture.size, hconstants, hroot.closed, hnested]
  obtain ⟨u, native, hunit, hget, hnone⟩ := hroot.linked.code
  have hholds := hroot.holds
  rw [hlayout] at hunit hholds
  rw [hnone hn, ← native_of_unit hunit] at hget
  cases a with
  | bare ref => exact ⟨ref, capture, u, rfl, hget, hunit⟩
  | bound _ _ | curryable _ _ => exact hholds.elim

/-- A tree of the first-order language is compiled to a unit without a closure. -/
theorem compile_inv (hfirst : t.FirstOrder) (hn : c.settings.nativeEnabled = false)
    (h : compile t params none c s = (.ok a, s')) :
    ∃ ref capture u, a = .bare ref ∧ s'.units[ref.id]? = some u ∧
      Emit.unit c.operators "root" t params t.ty capture none = .ok u :=
  compile_bare (hfirst.mono fun _ _ _ h => h.1) hn h

/-- Compiled code refines the evaluator on the first-order language. Compiled without a requested type and
without native code, a tree that is formed well gives a unit whose calls come to what the evaluator comes to:
the same value or exception, and the same world. This is so in every run that is undisturbed: operators are still
chosen as they were when the code was emitted, and no store of an initialiser changes the target itself. The world may
be any, the host may do whatever keeps addresses out of the world, and fuel for one pass over the unit's code is
enough. -/
theorem compile_refines_evaluate (hcompile : compile t params none c s = (.ok a, s'))
    (hnative : c.settings.nativeEnabled = false) (hwf : t.WellFormed c.operators) (hfirst : t.FirstOrder)
    (hparams : params.Nodup) (hfew : params.length ≤ 65535) {p : Program}
    (hunits : s'.units.toList <+: p.units.toList) :
    ∃ u, p.units[a.unit.id]? = some u ∧ (u.locals.size ≤ 65535 → ∀ fuel, u.instrs.size ≤ fuel →
      ∀ F I, Tame p.library (p.invoke fuel) F I →
      ∀ args w, args.length = params.length → (∀ v ∈ args, v.Portable F) → I w →
      t.Undisturbed c.operators p.library (p.invoke fuel) params args w →
        p.invokeArtifact (fuel + 1) a args w = p.evaluate fuel t params args w) := by
  obtain ⟨ref, capture, u, rfl, hget, hunit⟩ := compile_inv hfirst hnative hcompile
  have hu : p.units[ref.id]? = some u := Builder.getElem?_of_starts hunits hget
  refine ⟨u, hu, fun hlocals fuel hfuel F I hT args w hlen hargs hw hrun => ?_⟩
  have hS := Same.simulated (S := ⟨c.operators, p.library, p.invoke fuel, F, I⟩) hT hwf hfirst
  obtain ⟨b, b', D, D', hcode⟩ := Emit.unit_inv (Same.result hS ⟨rfl, rfl⟩).emits hunit
  rw [Program.invokeArtifact_bare hu hcode.head.2.1 hcode.head.2.2 (Builder.finished hcode.finish).native hlen,
    Program.evaluate, ← hrun.asCode_eq]
  have hsmall : params.length < Nat.pow 2 16 := by norm_num; omega
  have hsmall' : u.locals.size ≤ Nat.pow 2 16 := by norm_num; omega
  exact Same.interpret_eq hS hunit hparams hsmall hsmall' hlen hargs hw hfuel

/-- Sets the message of an exception to a text that is put together. -/
def setMessage (x : Param) : Tree :=
  let text : Tree := .node 3 .str
    (.arith .add (.node 1 .str (.constant (.str "so "))) (.node 2 .str (.constant (.str "late"))) false none)
  .node 4 x.ty (.memberInit (.node 0 x.ty (.parameter x)) [⟨.field .exception 0, text⟩])

/-- A host whose functions do nothing but return a number. -/
def numbers : Library where
  operators := []
  host _ call h := .finish call.receiver (.ok (.i32 7)) h

theorem tame_numbers (inv : Invoker) :
    Tame numbers inv (fun _ => False) fun w => w.heap.Portable fun _ => False where
  heap _ h := h
  write _ _ _ h := h
  host fn receiver args w hw _ _ := by
    refine ⟨hw, ?_, by rintro v ⟨⟩⟩
    rintro v ⟨⟩
    exact .int _
  invoke f args w _ hf := hf.elim

/-- The store goes into an object, and the text is one of two strings. -/
theorem undisturbed_setMessage (inv : Invoker) :
    let x : Param := ⟨0, "x", .cls .exception⟩
    (setMessage x).Undisturbed [] numbers inv [x] [.object ⟨0, .exception⟩]
    { heap := { objects := #[#[.str ""]] } } := by
  intro x
  let W := Manner.watched [] .capacityOverflow
  let obj : Value := .object ⟨0, .exception⟩
  let text : Tree := .node 3 .str
    (.arith .add (.node 1 .str (.constant (.str "so "))) (.node 2 .str (.constant (.str "late"))) false none)
  let ctx : EvalContext := ⟨numbers, inv, none, []⟩
  let s (message : String) : Activation × World := (#[(x, obj)], { heap := { objects := #[#[.str message]] } })
  have htarget : (EvalM.lookup x >>= EvalM.access.read) ctx (s "") = (.ok obj, s "") := rfl
  have htext : (text.under W).value ctx (s "") = (.ok (.str "so late"), s "") := rfl
  have hstore : Eval.storeMember obj (.field .exception 0) (.str "so late") ctx (s "") =
      (.ok (obj, .ok ()), s "so late") := rfl
  have hkeep : W.keeping obj obj ctx (s "so late") = (.ok obj, s "so late") := congrFun₂ (if_pos rfl) _ _
  have hinit : ((setMessage x).under W).value ctx (s "") = (.ok obj, s "so late") := by
    rw [setMessage, Tree.under_node]
    refine (Act.bind_ok htarget _).trans ?_
    refine (Act.bind_ok htext _).trans ?_
    exact (Act.bind_ok hstore _).trans (Act.bind_ok hkeep _)
  refine ⟨.capacityOverflow, fun h => ?_⟩
  rw [Eval.binding_eq rfl] at h
  cases (congrArg Prod.fst (Act.bind_ok hinit fun v => pure v)).symm.trans h

/-- The message is stored, compiled as evaluated. -/
theorem compile_refines_evaluate_setMessage :
    let x : Param := ⟨0, "x", .cls .exception⟩
    let obj : Value := .object ⟨0, .exception⟩
    let w : World := { heap := { objects := #[#[.str ""]] } }
    let c : Compiler := ⟨{ nativeEnabled := false }, []⟩
    let s := (compile (setMessage x) [x] none c {}).2
    ∃ a, (compile (setMessage x) [x] none c {}).1 = .ok a ∧
      Program.invokeArtifact ⟨s.units, numbers⟩ 9 a [obj] w = Program.evaluate ⟨s.units, numbers⟩ 8 (setMessage x)
        [x] [obj] w ∧
      (Program.evaluate ⟨s.units, numbers⟩ 8 (setMessage x) [x] [obj] w).2.heap.objects = #[#[.str "so late"]] := by
  intro x obj w c s
  have hrun : ((compile (setMessage x) [x] none c {}).1.toOption.any fun a =>
      s.units[a.unit.id]?.any fun u => u.locals.size == 0 && u.instrs.size == 7) = true := by
    decide +kernel
  have hwf : (setMessage x).WellFormed [] := by
    simp only [Tree.WellFormed, setMessage, Tree.all_node, Shape.children, List.map_cons, List.map_nil,
      List.forall_mem_cons, List.not_mem_nil, IsEmpty.forall_iff, implies_true, and_true, Shape.WellFormed, true_and]
    rfl
  have hfirst : (setMessage x).FirstOrder := by
    simp only [Tree.FirstOrder, setMessage, Tree.all_node, Shape.children, List.map_cons, List.map_nil,
      List.forall_mem_cons, List.not_mem_nil, IsEmpty.forall_iff, implies_true, and_true]
    decide
  rcases hx : compile (setMessage x) [x] none c {} with ⟨r | a, s'⟩ <;> rw [hx] at hrun
  · cases hrun
  obtain ⟨u, hu, hcall⟩ := compile_refines_evaluate hx rfl hwf hfirst (List.nodup_singleton x) (by decide)
    (p := ⟨s'.units, numbers⟩) List.prefix_rfl
  have hs : s = s' := congrArg Prod.snd hx
  simp only [hs, show s'.units[a.unit.id]? = some u from hu, Except.toOption, Option.any_some, Bool.and_eq_true,
    beq_iff_eq] at hrun
  have hheap : w.heap.Portable fun _ => False := ⟨by simp [w, Value.Portable.str], by simp [w], by simp [w]⟩
  refine ⟨a, rfl, ?_, rfl⟩
  rw [hs]
  exact hcall (by omega) 8 (by omega) _ _ (tame_numbers _) [obj] w rfl (by simpa using .object _) hheap
    (undisturbed_setMessage _)

end CompileM

end ExprCompiler
