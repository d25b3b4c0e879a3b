/-
What a unit captures is a matter of its tree alone. The artifacts in the captures tell when a lambda was compiled
and into which unit; without them, the captures that an analysis finds are given by a fold over the tree that
compiles nothing. So two analyses of one lambda agree, wherever the lambda was met.
-/
import ExprCompiler.Proofs.Compile.Analysis

namespace ExprCompiler

/-! ## Captures without artifacts -/

/-- Stands for an artifact that is of no account. -/
def Artifact.blank : Artifact :=
  .bare ⟨0, ""⟩

namespace Capture

mutual

/-- The captures without the artifacts of the nested lambdas, at every depth. -/
def plain : Capture → Capture
  | ⟨constants, params, nested⟩ => ⟨constants, params, plainAll nested⟩

def plainAll : List Nested → List Nested
  | [] => []
  | ⟨node, _, none, sig⟩ :: ns => ⟨node, .blank, none, sig⟩ :: plainAll ns
  | ⟨node, _, some child, sig⟩ :: ns => ⟨node, .blank, some (plain child), sig⟩ :: plainAll ns

end

end Capture

/-- The record of a nested lambda without its artifact. -/
def NestedOf.plain (n : Nested) : Nested :=
  { n with artifact := .blank, capture := n.capture.map Capture.plain }

@[simp] theorem NestedOf.plain_node (n : Nested) : n.plain.node = n.node := rfl

@[simp] theorem NestedOf.plain_sig (n : Nested) : n.plain.sig = n.sig := rfl

@[simp] theorem NestedOf.plain_capture (n : Nested) : n.plain.capture = n.capture.map Capture.plain := rfl

@[simp] theorem NestedOf.plain_itemType (n : Nested) : n.plain.itemType = n.itemType := by
  simp [NestedOf.itemType]

namespace Capture

theorem plainAll_eq (ns : List Nested) : plainAll ns = ns.map NestedOf.plain := by
  induction ns with
  | nil => rw [plainAll, List.map_nil]
  | cons n ns ih =>
    obtain ⟨node, artifact, _ | child, sig⟩ := n
    · rw [plainAll, ih, List.map_cons]
      rfl
    · rw [plainAll, ih, List.map_cons]
      rfl

@[simp] theorem plain_constants (c : Capture) : c.plain.constants = c.constants := by
  cases c
  rw [plain]

@[simp] theorem plain_params (c : Capture) : c.plain.params = c.params := by
  cases c
  rw [plain]

@[simp] theorem plain_nested (c : Capture) : c.plain.nested = c.nested.map NestedOf.plain := by
  cases c
  rw [plain, plainAll_eq]

theorem ext_iff' {c c' : Capture} :
    c = c' ↔ c.constants = c'.constants ∧ c.params = c'.params ∧ c.nested = c'.nested := by
  cases c
  cases c'
  simp

@[simp] theorem plain_empty : ({} : Capture).plain = {} := by
  rw [plain, plainAll]

@[simp] theorem plain_size (c : Capture) : c.plain.size = c.size := by
  simp [size]

@[simp] theorem plain_isEmpty (c : Capture) : c.plain.isEmpty = c.isEmpty := by
  simp [isEmpty]

@[simp] theorem plain_constantIndex? (c : Capture) (node : NodeId) :
    c.plain.constantIndex? node = c.constantIndex? node := by
  simp [constantIndex?]

@[simp] theorem plain_paramIndex? (c : Capture) (p : Param) : c.plain.paramIndex? p = c.paramIndex? p := by
  simp [paramIndex?]

@[simp] theorem plain_nestedIndex? (c : Capture) (node : NodeId) : c.plain.nestedIndex? node = c.nestedIndex? node := by
  simp only [nestedIndex?, plain_nested, List.findIdx?_map]
  rfl

theorem plain_addConstant (c : Capture) (r : CapturedConstant) :
    (c.addConstant r).2.plain = (c.plain.addConstant r).2 := by
  unfold addConstant
  rw [plain_constantIndex?]
  split
  · rfl
  · simp [ext_iff']

theorem plain_addParam (c : Capture) (p : Param) : (c.addParam p).2.plain = (c.plain.addParam p).2 := by
  unfold addParam
  rw [plain_paramIndex?]
  split
  · rfl
  · simp [ext_iff']

theorem plain_addNested (c : Capture) (n : Nested) : (c.addNested n).2.plain = (c.plain.addNested n.plain).2 := by
  unfold addNested
  rw [plain_nestedIndex?, NestedOf.plain_node]
  split
  · rfl
  · simp [ext_iff']

theorem plain_capturing (declared : Param → Bool) (c : Capture) (p : Param) :
    (c.capturing declared p).plain = c.plain.capturing declared p := by
  unfold capturing
  split
  · rfl
  · exact c.plain_addParam p

theorem plain_absorb (declared : Param → Bool) (c : Capture) (n : Nested) :
    (c.absorb declared n).plain = c.plain.absorb declared n.plain := by
  have hparams : ∀ (ps : List Param) c, (ps.foldl (capturing declared) c).plain =
    ps.foldl (capturing declared) c.plain := fun ps c =>
    (List.foldl_hom plain fun c p => (c.plain_capturing declared p).symm).symm
  have hconstants : ∀ (rs : List CapturedConstant) (c : Capture), (rs.foldl (fun c r => (c.addConstant r).2) c).plain =
      rs.foldl (fun c r => (c.addConstant r).2) c.plain := fun rs c =>
    (List.foldl_hom plain fun c r => (c.plain_addConstant r).symm).symm
  have hnested : ∀ (ns : List Nested) (c : Capture), (ns.foldl (fun c m => (c.addNested m).2) c).plain =
      (ns.map NestedOf.plain).foldl (fun c m => (c.addNested m).2) c.plain := by
    intro ns c
    rw [List.foldl_map]
    exact (List.foldl_hom plain fun c m => (c.plain_addNested m).symm).symm
  simp only [absorb, plain_addNested, hnested, hconstants, hparams]
  rcases hc : n.capture with _ | child <;> simp [hc]

/-! ## The fold -/

/-- The record of a lambda, but for its artifact; a lambda without a signature has none. -/
def record? (id : NodeId) (ty : Ty) (captures : Capture) : Option Nested :=
  ty.signature?.map fun sig => ⟨id, .blank, if captures.isEmpty then none else some captures, sig⟩

/-- What a node adds to the captures where some tokens are declared, as a function of what its children add. -/
abbrev Outline := (Param → Bool) → Capture → Capture

/-- What a node adds to the captures. -/
def Outline.node (id : NodeId) (ty : Ty) : Shape (Tree.Child Outline) → Outline
  | .constant v => fun _ c => if v.isImmediate then c else (c.addConstant ⟨id, v, ty⟩).2
  | .parameter p => fun declared c => c.capturing declared p
  | .lambda params body _ => fun declared c =>
    if (c.nestedIndex? id).isSome then c
    else ((record? id ty (body.meaning (params.contains ·) {})).map (absorb declared c)).getD c
  | shape => fun declared c =>
    shape.enclosed.foldl (fun c e => e.2.meaning (fun p => e.1.contains p || declared p) c) c

end Capture

namespace Tree

/-- What a tree adds to the captures of a unit. -/
def outline : Tree → Capture.Outline :=
  fold Capture.Outline.node

/-- What trees add one after the other, each with what is declared around it. -/
def outlineAll (es : List (List Param × Tree)) : Capture.Outline := fun declared c =>
  es.foldl (fun c e => e.2.outline (fun p => e.1.contains p || declared p) c) c

theorem outlineAll_single (t : Tree) (declared : Param → Bool) (c : Capture) :
    outlineAll [([], t)] declared c = t.outline declared c := by
  simp [outlineAll]

/-- What a unit with the given body and parameters captures. -/
def captures (body : Tree) (params : List Param) : Capture :=
  body.outline (params.contains ·) {}

end Tree

/-! ## Analyses -/

namespace Analyze

open CompileM

variable {c : Compiler}

/-- An analysis that succeeds finds what a fold gives. -/
def Outlined (c : Compiler) (x : AnalyzeM Unit) (es : List (List Param × Tree)) : Prop :=
  ∀ scope capture s, Promise.nothing.Kept c s (x scope capture) fun r _ =>
    r.2.plain = Tree.outlineAll es scope.declares capture.plain

theorem Outlined.captures {body : Tree} (h : Outlined c body.analysis [([], body)]) (params : List Param)
    (s : Session) :
    Promise.nothing.Kept c s (body.analysis ⟨params, []⟩ {}) fun r _ => r.2.plain = body.captures params := by
  refine (h ⟨params, []⟩ {} s).mono fun r _ _ hr => ?_
  rw [hr, Tree.outlineAll_single, Capture.plain_empty, Tree.captures]
  congr 1
  funext p
  simp [Scope.declares]

/-- The record of a lambda that was compiled. -/
theorem Recorded.plain {P : Promise} {s s' : Session} {id : NodeId} {ty : Ty} {params : List Param} {body : Tree}
    {name : Option String} {n : Nested}
    (h : Recorded P c s (fun capture _ => capture.plain = body.captures params) id ty params body name n s') :
    Capture.record? id ty (body.captures params) = some n.plain := by
  cases h with
  | @record sig capture ref s₁ s' signature _ found _ _ _ =>
    rw [← found, Capture.record?, signature, Option.map_some, Capture.plain_isEmpty, NestedOf.plain]
    dsimp only
    split <;> rfl

theorem walks_outlined : Walks (fun id => id) (fun _ => True) fun es x _ => Outlined c x es where
  nil _ _ _ := .of_pure rfl
  append hx hy scope capture s := by
    refine (hx scope capture s).bind fun r s' _ hr => (hy scope r.2 s').mono fun r' _ _ hr' => ?_
    rw [hr', hr, Tree.outlineAll, Tree.outlineAll, Tree.outlineAll, List.foldl_append]
  within vars ts _ _ hx scope capture s := by
    refine (hx _ capture s).mono fun r _ _ hr => hr.trans ?_
    have hdeclared : ∀ p, (⟨scope.params, vars :: scope.scopes⟩ : Scope).declares p =
      (vars.contains p || scope.declares p) := by
      intro p
      simp only [Scope.declares, List.any_cons]
      exact Bool.or_left_comm _ _ _
    simp [Tree.outlineAll, List.foldl_map, hdeclared]
  decline _ _ _ _ _ _ _ := .decline _
  child _ _ := trivial
  constant _ scope capture s := by
    rw [constant_apply, Tree.outlineAll_single]
    refine .of_pure ?_
    rw [Tree.outline, Tree.fold_node]
    show _ = if _ then _ else _
    dsimp only
    split
    · rfl
    · exact capture.plain_addConstant _
  parameter {id ty p} _ scope capture s := by
    rw [addParam_apply, Tree.outlineAll_single, Tree.outline, Tree.fold_node]
    exact .of_pure (capture.plain_capturing scope.declares p)
  lambda {id ty params body name} _ hx scope capture s := by
    rw [lambda_apply, Tree.outlineAll_single, Tree.outline, Tree.fold_node]
    show Promise.nothing.Kept c s _ fun r _ => _ = if (capture.plain.nestedIndex? id).isSome then _ else _
    rw [Capture.plain_nestedIndex?]
    split
    · exact .of_pure rfl
    · refine (kept_compileNested (Q := fun capture _ => capture.plain = body.captures params)
        (fun s₁ _ => Outlined.captures hx params s₁) fun _ _ _ _ => Promise.links_nothing).bind
          fun n s' _ hn => .of_pure ?_
      show _ = ((Capture.record? id ty (body.captures params)).map (Capture.absorb scope.declares capture.plain)).getD
        capture.plain
      rw [hn.plain]
      exact capture.plain_absorb scope.declares n
  inner {id ty s x x'} _ hs hx scope capture s' := by
    have hnode : (Tree.node id ty s).outline = Tree.outlineAll s.enclosed := by
      have hfold : (fun declared c => (s.map (Tree.Child.of Tree.outline)).enclosed.foldl
          (fun c e => e.2.meaning (fun p => e.1.contains p || declared p) c) c) = Tree.outlineAll s.enclosed := by
        funext declared capture
        rw [Shape.enclosed_map, List.foldl_map]
        rfl
      rw [Tree.outline, Tree.fold_node]
      cases s with
      | constant v => exact absurd rfl (hs.1 v)
      | parameter p => exact absurd rfl (hs.2.1 p)
      | lambda params body name => exact absurd rfl (hs.2.2 params body name)
      | _ => exact hfold
    rw [Tree.outlineAll_single, hnode]
    exact hx scope capture s'

/-- What an analysis of a tree finds is given by the tree. -/
theorem outlined_analysis (t : Tree) : Outlined c t.analysis [([], t)] :=
  walks_outlined.analysis trivial

theorem Found.plain {body : Tree} {params : List Param} {capture : Capture} {s' : Session}
    (h : Found c body params capture s') : capture.plain = body.captures params := by
  obtain ⟨s, h⟩ := h
  exact ((outlined_analysis body).captures params s |>.result h).2

end Analyze

end ExprCompiler
