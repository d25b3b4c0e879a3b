/-
Compilation does not depend on what nodes are called. Where no two identities become one, the analysis of a
renamed tree finds the renamed captures, and the units, the events and the refusals are the same.
-/
import ExprCompiler.Proofs.Compile.Analysis
import ExprCompiler.Proofs.Emit.Rename

namespace ExprCompiler

variable {f : NodeId → NodeId}

namespace Capture

theorem capturing_rename (declared : Param → Bool) (c : Capture) (p : Param) :
    (c.rename f).capturing declared p = (c.capturing declared p).rename f := by
  unfold capturing
  split
  · rfl
  · exact addParam_rename c p

theorem absorb_rename (hf : Function.Injective f) (declared : Param → Bool) (c : Capture) (n : Nested) :
    (c.rename f).absorb declared (renameNested f n) = (c.absorb declared n).rename f := by
  have hparams : ∀ (ps : List Param) (c : Capture), ps.foldl (capturing declared) (c.rename f) =
      (ps.foldl (capturing declared) c).rename f := fun ps c =>
    List.foldl_hom (rename f) fun c p => capturing_rename declared c p
  have hconstants : ∀ (rs : List CapturedConstant) (c : Capture),
      (rs.map (CapturedConstant.rename f)).foldl (fun c r => (c.addConstant r).2) (c.rename f) =
        (rs.foldl (fun c r => (c.addConstant r).2) c).rename f := by
    intro rs c
    rw [List.foldl_map]
    exact List.foldl_hom (rename f) fun c r => addConstant_rename hf c r
  have hnested : ∀ (ns : List Nested) (c : Capture),
      (ns.map (renameNested f)).foldl (fun c m => (c.addNested m).2) (c.rename f) =
        (ns.foldl (fun c m => (c.addNested m).2) c).rename f := by
    intro ns c
    rw [List.foldl_map]
    exact List.foldl_hom (rename f) fun c m => addNested_rename hf c m
  have hchild : (renameNested f n).capture.getD {} = (n.capture.getD {}).rename f := by
    rw [capture_renameNested]
    cases n.capture with
    | none => exact rename_empty.symm
    | some child => rfl
  simp only [absorb, hchild, params_rename, constants_rename, nested_rename, hparams, hconstants, hnested,
    addNested_rename hf]

end Capture

namespace CompileM

variable {α β : Type}

/-- A refusal is reported whatever becomes of a result. -/
theorem reporting_map (g : α → β) (name : String) (staged : Bool) (x : CompileM α) :
    reporting name staged (g <$> x) = g <$> reporting name staged x := by
  have hmap : ∀ (y : CompileM α) c s, (g <$> y) c s = ((y c s).1.map g, (y c s).2) := by
    intro y c s
    rw [map_eq_pure_bind, bind_apply]
    rcases y c s with ⟨r | a, s'⟩ <;> rfl
  funext c s
  unfold reporting
  rw [tryCatch_apply, hmap, hmap, tryCatch_apply]
  rcases x c s with ⟨r | a, s'⟩
  · -- the handler throws whatever it was given
    cases r with
    | defect d => rfl
    | declined reason => cases staged <;> rfl
  · rfl

/-! ## Linking -/

theorem layoutOf_rename (name : String) (capture : Capture) :
    layoutOf name (capture.rename f) = layoutOf name capture := by
  unfold layoutOf
  simp only [Capture.isEmpty_rename, Capture.layout_rename]

section

variable (hf : Function.Injective f)
include hf

theorem emitted_rename (name : String) (t : Tree) (params : List Param) (ret : Ty) (capture : Capture)
    (layout : Option Layout) : emitted name (t.rename f) params ret (capture.rename f) layout =
      emitted name t params ret capture layout := by
  unfold emitted
  simp only [Emit.unit_rename hf]

theorem link_rename (name : String) (t : Tree) (params : List Param) (ret : Ty) (capture : Capture) (isRoot : Bool) :
    link name (t.rename f) params ret (capture.rename f) isRoot = link name t params ret capture isRoot := by
  unfold link
  simp only [layoutOf_rename, emitted_rename hf, Capture.size_rename]

theorem linkRoot_rename (name : String) (t : Tree) (params : List Param) (ret : Ty) (capture : Capture) :
    linkRoot name (t.rename f) params ret (capture.rename f) = linkRoot name t params ret capture := by
  unfold linkRoot
  simp only [link_rename hf, Capture.materialize_rename]

end

end CompileM

/-! ## Analysis -/

namespace Analyze

open CompileM

/-- `x'` does to renamed captures what `x` does to the captures. -/
def Renames (f : NodeId → NodeId) (x x' : AnalyzeM Unit) : Prop :=
  ∀ scope capture, x' scope (capture.rename f) = (fun r => (r.1, r.2.rename f)) <$> x scope capture

namespace Renames

variable {x x' : AnalyzeM Unit}

theorem capturesOf (h : Renames f x x') (params : List Param) :
    capturesOf x' params = Capture.rename f <$> capturesOf x params := by
  have hx := h ⟨params, []⟩ {}
  rw [Capture.rename_empty] at hx
  unfold Analyze.capturesOf
  rw [hx]
  simp

theorem run (h : Renames f x x') (name : String) (params : List Param) :
    run name x' params = Capture.rename f <$> run name x params := by
  unfold Analyze.run
  rw [h.capturesOf, reporting_map]
  simp

end Renames

variable (hf : Function.Injective f)
include hf

theorem compileNested_rename {body : Tree} (h : Renames f body.analysis (body.rename f).analysis)
    (id : NodeId) (ty : Ty) (params : List Param) (name : Option String) :
    compileNested (f id) ty params (.of Tree.analysis (body.rename f)) name =
      Capture.renameNested f <$> compileNested id ty params (.of Tree.analysis body) name := by
  unfold compileNested
  cases ty.signature? with
  | none => rfl
  | some sig =>
    have hty : (Tree.Child.of Tree.analysis (body.rename f)).ty = (Tree.Child.of Tree.analysis body).ty :=
      Tree.ty_rename f body
    have hrun : Analyze.run (name.getD "lambda") (Tree.Child.of Tree.analysis (body.rename f)).meaning params =
        Capture.rename f <$> Analyze.run (name.getD "lambda") (Tree.Child.of Tree.analysis body).meaning params :=
      h.run _ params
    have hlink : ∀ capture, link (name.getD "lambda") (Tree.Child.of Tree.analysis (body.rename f)).node params sig.ret
        (Capture.rename f capture) false = link (name.getD "lambda") (Tree.Child.of Tree.analysis body).node params
          sig.ret capture false := fun capture => link_rename hf _ body params sig.ret capture false
    simp only [hty, hrun, bind_map_left, hlink]
    split
    · rfl
    · simp only [map_bind, map_pure, Capture.isEmpty_rename]
      congr 1
      funext capture
      congr 1
      funext linked
      cases hempty : capture.isEmpty <;> split <;> rfl

/-- The analysis of a renamed tree. -/
theorem walks_renames : Walks f (fun _ => True) fun _ x x' => Renames f x x' where
  nil _ _ := rfl
  append {_ _ x x' y y'} hx hy scope capture := by
    show x' scope (capture.rename f) >>= (fun r => y' scope r.2) = _ <$> (x scope capture >>= fun r => y scope r.2)
    rw [hx, map_bind, bind_map_left]
    congr 1
    funext r
    exact hy scope r.2
  within _ _ _ _ hx _ capture := hx _ capture
  decline _ _ _ _ _ _ := rfl
  child _ _ := trivial
  constant {id ty v} _ scope capture := by
    rw [constant_apply, constant_apply, map_pure]
    congr 2
    split
    · rfl
    · exact Capture.addConstant_rename hf capture ⟨id, v, ty⟩
  parameter {_ _ p} _ scope capture := by
    rw [addParam_apply, addParam_apply, map_pure, Capture.capturing_rename]
  lambda {id ty params body name} _ hx scope capture := by
    rw [lambda_apply, lambda_apply, Capture.nestedIndex?_rename hf]
    split
    · rfl
    · rw [compileNested_rename hf hx, bind_map_left, map_bind]
      congr 1
      funext n
      rw [map_pure, Capture.absorb_rename hf]
  inner _ _ hx := hx

theorem renames_analysis (t : Tree) : Renames f t.analysis (t.rename f).analysis :=
  (walks_renames hf).analysis trivial

end Analyze

/-! ## Roots -/

namespace CompileM

variable (hf : Function.Injective f)
include hf

theorem root_rename (name : String) (t : Tree) (params : List Param) (requested : Requested) :
    root name (t.rename f) params requested = root name t params requested := by
  unfold root
  simp only [Tree.ty_rename, (Analyze.renames_analysis hf t).run, bind_map_left, Capture.params_rename,
    linkRoot_rename hf]

theorem compile_rename (t : Tree) (params : List Param) (requested : Requested) :
    compile (t.rename f) params requested = compile t params requested :=
  root_rename hf "root" t params requested

theorem compileLambda_rename (t : Tree) : compileLambda (t.rename f) = compileLambda t := by
  obtain ⟨id, ty, s⟩ := t
  rw [Tree.rename_node]
  cases s with
  | lambda params body name => exact root_rename hf (name.getD "lambda") body params ty.signature?
  | _ => rfl

end CompileM

end ExprCompiler
