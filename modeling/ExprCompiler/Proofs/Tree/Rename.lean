/-
Renaming the identities of nodes. Trees and captures are renamed node by node; where no two identities
become one, a capture finds an item under its new identity where it found it under the old one.
-/
import ExprCompiler.Capture
import ExprCompiler.Proofs.Tree
import Mathlib.Logic.Function.Basic

namespace ExprCompiler

/-! ## Trees -/

namespace Shape

variable {C D E : Type}

theorem map_map (f : C → D) (g : D → E) (s : Shape C) : (s.map f).map g = s.map (g ∘ f) := by
  cases s <;> simp [map, Binding.map, CatchClause.map, Function.comp_def]

theorem map_self (s : Shape C) : (s.map fun c => c) = s := by
  have hbinding : (Binding.map fun c : C => c) = id := rfl
  have hclause : (CatchClause.map fun c : C => c) = id := by
    funext k
    simp [CatchClause.map]
  cases s <;> simp [map, hbinding, hclause]

theorem map_congr {f g : C → D} {s : Shape C} (h : ∀ c ∈ s.children, f c = g c) : s.map f = s.map g := by
  have hopt : ∀ {r : Option C}, (∀ c ∈ r, f c = g c) → r.map f = r.map g := by
    intro r hr
    cases r with
    | none => rfl
    | some c => simp [hr c rfl]
  cases s with
  | call r m args =>
    simp only [children, List.mem_append, Option.mem_toList] at h
    simp [map, hopt fun c hc => h c (.inl hc), List.map_congr_left fun c hc => h c (.inr hc)]
  | member r m | throw r => simp [map, hopt fun c hc => h c (by simpa [children] using hc)]
  | new ctor args | newArray elem items | block vars body => simpa [map, children] using h
  | memberInit t bs =>
    have hb : ∀ b ∈ bs, b.map f = b.map g := fun b hb => by
      simp [Binding.map, h b.value (by simp only [children, List.mem_cons, List.mem_map]; exact .inr ⟨b, hb, rfl⟩)]
    simp [map, h t (by simp [children]), List.map_congr_left hb]
  | invoke t args =>
    simp only [children, List.mem_cons] at h
    simp [map, h t (.inl rfl), List.map_congr_left fun c hc => h c (.inr hc)]
  | index r ix args =>
    simp only [children, List.mem_cons] at h
    simp [map, h r (.inl rfl), List.map_congr_left fun c hc => h c (.inr hc)]
  | guarded b ks fin =>
    simp only [children, List.mem_append, List.mem_cons, List.mem_flatMap, Option.mem_toList] at h
    have hk : ∀ k ∈ ks, k.map f = k.map g := fun k hk => by
      have hin : ∀ c ∈ k.children, f c = g c := fun c hc => h c (.inl (.inr ⟨k, hk, hc⟩))
      simp only [CatchClause.children, List.mem_append, Option.mem_toList, List.mem_singleton] at hin
      simp [CatchClause.map, hopt fun c hc => hin c (.inl hc), hin k.body (.inr rfl)]
    simp [map, h b (.inl (.inl rfl)), List.map_congr_left hk, hopt fun c hc => h c (.inr hc)]
  | _ => simp_all [map, children]

end Shape

namespace Tree

/-- The tree with every identity replaced by its image. -/
def rename (f : NodeId → NodeId) : Tree → Tree :=
  fold fun id ty s => .node (f id) ty (s.map Child.meaning)

variable (f : NodeId → NodeId)

theorem rename_node (id : NodeId) (ty : Ty) (s : Shape Tree) :
    (Tree.node id ty s).rename f = .node (f id) ty (s.map (rename f)) := by
  rw [rename, fold_node, Shape.map_map]
  rfl

@[simp] theorem id_rename (t : Tree) : (t.rename f).id = f t.id := by
  obtain ⟨id, ty, s⟩ := t
  rw [rename_node]
  rfl

@[simp] theorem ty_rename (t : Tree) : (t.rename f).ty = t.ty := by
  obtain ⟨id, ty, s⟩ := t
  rw [rename_node]
  rfl

theorem rename_self (t : Tree) : (t.rename fun id => id) = t := by
  induction t using Tree.induct with
  | node id ty s ih =>
    rw [rename_node, Shape.map_congr fun c hc => ih c hc, Shape.map_self]

end Tree

/-! ## Captures -/

/-- A captured constant under its new identity. -/
def CapturedConstant.rename (f : NodeId → NodeId) (r : CapturedConstant) : CapturedConstant :=
  { r with node := f r.node }

namespace Capture

mutual

/-- The captures with every identity replaced by its image, those of nested lambdas included. -/
def rename (f : NodeId → NodeId) (c : Capture) : Capture :=
  match c with
  | ⟨constants, params, nested⟩ => ⟨constants.map (CapturedConstant.rename f), params, renameList f nested⟩
termination_by structural c

def renameOption (f : NodeId → NodeId) (c : Option Capture) : Option Capture :=
  match c with
  | none => none
  | some c => some (c.rename f)
termination_by structural c

def renameNested (f : NodeId → NodeId) (n : NestedOf Capture) : NestedOf Capture :=
  match n with
  | ⟨node, artifact, capture, sig⟩ => ⟨f node, artifact, renameOption f capture, sig⟩
termination_by structural n

def renameList (f : NodeId → NodeId) (ns : List (NestedOf Capture)) : List (NestedOf Capture) :=
  match ns with
  | [] => []
  | n :: ns => renameNested f n :: renameList f ns
termination_by structural ns

end

variable {f : NodeId → NodeId}

theorem renameOption_eq (c : Option Capture) : renameOption f c = c.map (rename f) := by
  cases c <;> rfl

theorem renameList_eq (ns : List (NestedOf Capture)) : renameList f ns = ns.map (renameNested f) := by
  induction ns with
  | nil => rfl
  | cons n ns ih => rw [renameList, ih, List.map_cons]

@[simp] theorem constants_rename (c : Capture) : (c.rename f).constants = c.constants.map (.rename f) := by
  cases c
  rfl

@[simp] theorem params_rename (c : Capture) : (c.rename f).params = c.params := by
  cases c
  rfl

@[simp] theorem nested_rename (c : Capture) : (c.rename f).nested = c.nested.map (renameNested f) := by
  cases c
  exact renameList_eq _

@[simp] theorem node_renameNested (n : Nested) : (renameNested f n).node = f n.node := by
  cases n
  rfl

@[simp] theorem artifact_renameNested (n : Nested) : (renameNested f n).artifact = n.artifact := by
  cases n
  rfl

@[simp] theorem sig_renameNested (n : Nested) : (renameNested f n).sig = n.sig := by
  cases n
  rfl

@[simp] theorem capture_renameNested (n : Nested) : (renameNested f n).capture = n.capture.map (rename f) := by
  cases n
  exact renameOption_eq _

@[simp] theorem itemType_renameNested (n : Nested) : (renameNested f n).itemType = n.itemType := by
  simp [NestedOf.itemType]

/-- Captures with equal items are equal. -/
theorem eq_of_items {c c' : Capture} (hc : c.constants = c'.constants) (hp : c.params = c'.params)
    (hn : c.nested = c'.nested) : c = c' := by
  cases c
  cases c'
  simp_all

@[simp] theorem rename_empty : ({} : Capture).rename f = {} := rfl

@[simp] theorem size_rename (c : Capture) : (c.rename f).size = c.size := by
  simp [size]

@[simp] theorem isEmpty_rename (c : Capture) : (c.rename f).isEmpty = c.isEmpty := by
  simp [isEmpty]

/-- Identities do not show in a layout. -/
@[simp] theorem layout_rename (c : Capture) (limit : Nat) : (c.rename f).layout limit = c.layout limit := by
  have hc : (c.constants.map (.rename f)).map CapturedConstant.ty = c.constants.map CapturedConstant.ty := by
    rw [List.map_map]
    rfl
  have hn : (c.nested.map (renameNested f)).map NestedOf.itemType = c.nested.map NestedOf.itemType := by
    rw [List.map_map]
    exact List.map_congr_left fun n _ => itemType_renameNested n
  simp only [layout, constants_rename, params_rename, nested_rename, hc, hn]

/-- Nor in a root closure. -/
@[simp] theorem materialize_rename (c : Capture) (l : Layout) : (c.rename f).materialize l = c.materialize l := by
  have hc : (c.constants.map (.rename f)).map CapturedConstant.value = c.constants.map CapturedConstant.value := by
    rw [List.map_map]
    rfl
  have hn : (c.nested.map (renameNested f)).map (fun n => n.artifact.itemValue) =
      c.nested.map fun n => n.artifact.itemValue := by
    rw [List.map_map]
    exact List.map_congr_left fun n _ => by simp
  simp only [materialize, constants_rename, params_rename, nested_rename, hc, hn]

section

variable (hf : Function.Injective f)
include hf

/-! ## Lookups

From here on no two identities become one. -/

theorem constantIndex?_rename (c : Capture) (id : NodeId) :
    (c.rename f).constantIndex? (f id) = c.constantIndex? id := by
  rw [constantIndex?, constants_rename, List.findIdx?_map]
  congr 1
  funext r
  exact hf.beq_eq

theorem nestedIndex?_rename (c : Capture) (id : NodeId) : (c.rename f).nestedIndex? (f id) = c.nestedIndex? id := by
  rw [nestedIndex?, nested_rename, List.findIdx?_map]
  congr 1
  funext n
  rw [Function.comp_apply, node_renameNested, hf.beq_eq]

theorem addConstant_rename (c : Capture) (r : CapturedConstant) :
    ((c.rename f).addConstant (r.rename f)).2 = (c.addConstant r).2.rename f := by
  have hindex : (c.rename f).constantIndex? (r.rename f).node = c.constantIndex? r.node :=
    constantIndex?_rename hf c r.node
  rw [addConstant, addConstant, hindex]
  split
  · rfl
  · exact eq_of_items (by simp) (by simp) (by simp)

omit hf in
theorem addParam_rename (c : Capture) (p : Param) : ((c.rename f).addParam p).2 = (c.addParam p).2.rename f := by
  have hindex : (c.rename f).paramIndex? p = c.paramIndex? p := by simp [paramIndex?]
  rw [addParam, addParam, hindex]
  split
  · rfl
  · exact eq_of_items (by simp) (by simp) (by simp)

theorem addNested_rename (c : Capture) (n : Nested) :
    ((c.rename f).addNested (renameNested f n)).2 = (c.addNested n).2.rename f := by
  rw [addNested, addNested, node_renameNested, nestedIndex?_rename hf]
  split
  · rfl
  · exact eq_of_items (by simp) (by simp) (by simp)

end

end Capture

end ExprCompiler
