/-
Code does not depend on the identities of nodes. Identities serve to find the items of a unit's closure,
and where the tree and the captures are renamed together, every item is found where it was.
-/
import ExprCompiler.Proofs.Emit.Pairs

namespace ExprCompiler

/-- The same unit with its captures renamed. -/
def EmitContext.rename (f : NodeId → NodeId) (ctx : EmitContext) : EmitContext :=
  { ctx with capture := ctx.capture.rename f }

namespace EmitContext

variable (f : NodeId → NodeId) (ctx : EmitContext)

@[simp] theorem operators_rename : (ctx.rename f).operators = ctx.operators := rfl

@[simp] theorem params_rename : (ctx.rename f).params = ctx.params := rfl

@[simp] theorem capture_rename : (ctx.rename f).capture = ctx.capture.rename f := rfl

@[simp] theorem layout_rename : (ctx.rename f).layout = ctx.layout := rfl

@[simp] theorem scopes_rename : (ctx.rename f).scopes = ctx.scopes := rfl

@[simp] theorem catchLocals_rename : (ctx.rename f).catchLocals = ctx.catchLocals := rfl

end EmitContext

namespace EmitM

variable {α β γ : Type} {f : NodeId → NodeId}

/-- The generator in a unit whose captures are renamed. -/
def renamed (f : NodeId → NodeId) (x : EmitM α) : EmitM α := fun ctx => x (ctx.rename f)

/-! ## Generators that name no node -/

@[simp] theorem renamed_pure (a : α) : renamed f (pure a) = pure a := rfl

@[simp] theorem renamed_bind (x : EmitM α) (k : α → EmitM β) :
    renamed f (x >>= k) = renamed f x >>= fun a => renamed f (k a) := rfl

@[simp] theorem renamed_check (r : Except Defect α) : renamed f (check r) = check r := by
  cases r <;> rfl

@[simp] theorem renamed_emit (i : Instr) : renamed f (emit i) = emit i := rfl

/-- What a generator reads of its surroundings comes renamed. -/
@[simp] theorem renamed_read : renamed f (read : EmitM EmitContext) = EmitContext.rename f <$> read := rfl

@[simp] theorem renamed_ite {c : Prop} [Decidable c] (x y : EmitM α) :
    renamed f (if c then x else y) = if c then renamed f x else renamed f y := by
  split <;> rfl

@[simp] theorem renamed_forM (g : γ → EmitM Unit) (xs : List γ) :
    renamed f (xs.forM g) = xs.forM fun x => renamed f (g x) := by
  induction xs with
  | nil => rfl
  | cons x xs ih =>
    show renamed f (g x >>= fun _ => xs.forM g) = renamed f (g x) >>= fun _ => xs.forM fun x => renamed f (g x)
    rw [renamed_bind, ih]

/-! ## Variables and closure items -/

@[simp] theorem renamed_layout : renamed f layout = layout := by
  unfold layout
  rw [renamed_bind, renamed_read, bind_map_left]
  congr 1
  funext ctx
  rw [EmitContext.layout_rename]
  cases ctx.layout <;> rfl

@[simp] theorem renamed_loadItem (slot : Nat) (ty : Ty) : renamed f (loadItem slot ty) = loadItem slot ty := by
  unfold loadItem
  rw [renamed_bind, renamed_layout]
  congr 1
  funext l
  split
  · rfl
  · simp only [renamed_bind, renamed_emit, renamed_ite, renamed_pure]

@[simp] theorem renamed_loadVar (var : FrameVar) (ty : Ty) : renamed f (loadVar var ty) = loadVar var ty := by
  cases var with
  | arg i | localVar i => rfl
  | closure slot => exact renamed_loadItem slot ty

@[simp] theorem renamed_storeVar (var : FrameVar) : renamed f (storeVar var) = storeVar var := by
  cases var with
  | arg i | localVar i => rfl
  | closure slot =>
    show renamed f (layout >>= fun l => emit (.storeItem l.strategy slot)) = _
    rw [renamed_bind, renamed_layout]
    rfl

/-- Tokens are no nodes, and captured ones keep their places. -/
@[simp] theorem renamed_resolve (p : Param) : renamed f (resolve p) = resolve p := by
  unfold resolve
  rw [renamed_bind, renamed_read, bind_map_left]
  congr 1
  funext ctx
  have hindex : (ctx.capture.rename f).paramIndex? p = ctx.capture.paramIndex? p := by simp [Capture.paramIndex?]
  simp only [EmitContext.scopes_rename, EmitContext.params_rename, EmitContext.layout_rename,
    EmitContext.capture_rename, hindex]
  rcases localOf? ctx.scopes p with _ | i
  · rcases ctx.params.findIdx? (· == p) with _ | i
    · rcases ctx.capture.paramIndex? p with _ | i
      · rfl
      · dsimp only
        rcases ctx.layout with _ | l
        · rfl
        · simp only [renamed_bind, renamed_check, renamed_pure]
    · rfl
  · rfl

@[simp] theorem renamed_found (i : Option Nat) : renamed f (found i) = found i := by
  cases i <;> rfl

section

variable (hf : Function.Injective f)
include hf

theorem renamed_loadConstant (id : NodeId) (ty : Ty) : renamed f (loadConstant (f id) ty) = loadConstant id ty := by
  unfold loadConstant
  simp only [renamed_read, bind_map_left, EmitContext.capture_rename, Capture.constantIndex?_rename hf, renamed_bind,
    renamed_found, renamed_layout, renamed_check, renamed_loadItem]

theorem renamed_loadNested (id : NodeId) (ty : Ty) : renamed f (loadNested (f id) ty) = loadNested id ty := by
  unfold loadNested
  simp only [renamed_read, bind_map_left, EmitContext.capture_rename, Capture.nestedIndex?_rename hf, renamed_bind,
    renamed_found, renamed_layout, renamed_check, renamed_loadItem]

end

/-- The two generators side by side. -/
theorem both_renamed {x x' : EmitM α} (h : renamed f x' = x) (ctx : EmitContext) :
    (Pairing.same fun _ => True).Both ctx (ctx.rename f) x x' := by
  rintro b _ rfl
  rw [show x' (ctx.rename f) b = x ctx b from congrFun (congrFun h ctx) b]
  rcases x ctx b with r | ⟨a, c⟩
  · exact .error ⟨rfl, trivial⟩
  · exact .ok (Pairing.grows_same b c) rfl

end EmitM

/-! ## Nodes -/

namespace Emit

open EmitM

variable {f : NodeId → NodeId}

/-- A generator for each entry of a list, and its like for each renamed entry. -/
theorem renamed_forM_map {A B : Type} {xs : List A} {h h' : A → B} {k k' : B → EmitM Unit}
    (hk : ∀ x ∈ xs, renamed f (k' (h' x)) = k (h x)) : renamed f ((xs.map h').forM k') = (xs.map h).forM k := by
  induction xs with
  | nil => rfl
  | cons x xs ih =>
    show renamed f (k' (h' x)) >>= (fun _ => renamed f ((xs.map h').forM k')) = k (h x) >>= fun _ => (xs.map h).forM k
    rw [hk x List.mem_cons_self, ih fun y hy => hk y (List.mem_cons_of_mem x hy)]

section

variable (hf : Function.Injective f)
include hf

theorem renamed_constant (id : NodeId) (v : Value) : renamed f (constant (f id) v) = constant id v := by
  have hty : ∀ (c : Capture) (i : Nat), ((c.rename f).constants[i]?.map CapturedConstant.ty) =
      c.constants[i]?.map CapturedConstant.ty := by
    intro c i
    rw [Capture.constants_rename, List.getElem?_map, Option.map_map]
    rfl
  unfold constant
  simp only [renamed_ite, renamed_bind, renamed_emit, renamed_read, bind_map_left, EmitContext.capture_rename,
    Capture.constantIndex?_rename hf, renamed_found, renamed_layout, renamed_check, renamed_loadItem, hty]

/-- The closure of a nested lambda is built from the same items in the same order. -/
theorem renamed_lambda (id : NodeId) : renamed f (lambda (f id)) = lambda id := by
  unfold lambda
  simp only [renamed_bind, renamed_read, bind_map_left, EmitContext.capture_rename, Capture.nestedIndex?_rename hf,
    renamed_found, renamed_layout, renamed_check, Capture.nested_rename, List.getElem?_map]
  congr 1
  funext ctx
  congr 1
  funext i
  congr 1
  funext l
  congr 1
  funext slot
  congr 1
  funext ctx'
  cases ctx'.capture.nested[i]? with
  | none => rfl
  | some n =>
    simp only [Option.map_some, Capture.itemType_renameNested, Capture.capture_renameNested,
      Capture.artifact_renameNested, renamed_bind, renamed_loadItem]
    congr 1
    funext _
    cases n.capture with
    | none => rfl
    | some child =>
      cases n.artifact with
      | bare u | bound u c => rfl
      | curryable u l =>
        have hconstants : renamed f ((child.constants.map (CapturedConstant.rename f)).forM
          fun c => loadConstant c.node c.ty) =
            (child.constants.map fun c => c).forM fun c => loadConstant c.node c.ty :=
          renamed_forM_map fun c _ => renamed_loadConstant hf c.node c.ty
        have hnested : renamed f ((child.nested.map (Capture.renameNested f)).forM
          fun n => loadNested n.node n.itemType) =
            (child.nested.map fun n => n).forM fun n => loadNested n.node n.itemType := by
          refine renamed_forM_map fun n _ => ?_
          rw [Capture.node_renameNested, Capture.itemType_renameNested]
          exact renamed_loadNested hf n.node n.itemType
        rw [List.map_id'] at hconstants hnested
        simp only [Option.map_some, renamed_bind, Capture.constants_rename, Capture.params_rename,
          Capture.nested_rename, hconstants, hnested, renamed_forM, renamed_resolve, renamed_loadVar, renamed_emit]

/-- Lookups in a tree and its captures, and in both renamed. -/
theorem guides_rename : Guides (.same fun _ => True) f fun ctx ctx' _ => ctx' = ctx.rename f where
  full _ _ := fun _ _ => trivial
  operators := by
    rintro _ _ _ rfl
    rfl
  catchLocals := by
    rintro _ _ _ rfl
    rfl
  constant := by
    rintro _ _ id _ v rfl -
    exact both_renamed (renamed_constant hf id v) _
  nested := by
    rintro _ _ id _ _ _ _ rfl
    exact both_renamed (renamed_lambda hf id) _
  token := by
    rintro ctx _ _ _ p rfl b _ rfl
    rw [show resolve p (ctx.rename f) b = resolve p ctx b from congrFun (congrFun (renamed_resolve p) ctx) b]
    rcases resolve p ctx b with r | ⟨x, c⟩
    · exact .error ⟨rfl, trivial⟩
    · exact .ok (Pairing.grows_same b c) ⟨rfl, both_renamed (renamed_loadVar x p.ty) ctx,
        both_renamed (renamed_storeVar x) ctx⟩
  inside := by
    rintro _ _ _ _ _ _ _ ⟨vars, c⟩ rfl - - ho
    cases ho with
    | refl => rfl
    | scope _ hc => rw [hc]; rfl

/-- A unit is the same whatever its nodes are called. -/
theorem unit_rename (operators : Overloads) (name : String) (t : Tree) (params : List Param) (ret : Ty)
    (capture : Capture) (layout : Option Layout) :
    unit operators name (t.rename f) params ret (capture.rename f) layout =
      unit operators name t params ret capture layout := by
  let ctx : EmitContext := { operators, params, capture, layout }
  have hbody : (Pairing.same fun _ => True).Both ctx (ctx.rename f) (body t ret) (body (t.rename f) ret) :=
    (guides_rename hf).body (Pairing.lawful_same (fun _ => trivial) fun _ _ => trivial) rfl ret
  have hrun := (hbody (start name params ret layout) _ rfl).eq_of_same
  unfold unit
  rw [← hrun]
  rfl

end

end Emit

end ExprCompiler
