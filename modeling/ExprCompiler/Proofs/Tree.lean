/-
Induction over trees, properties of all nodes of a tree, and the trees that are formed well.
-/
import ExprCompiler.Operator.Form
import ExprCompiler.Tree

namespace ExprCompiler

namespace Shape

theorem sizeOf_child {s : Shape Tree} {c : Tree} (h : c ∈ s.children) : sizeOf c < sizeOf s := by
  have hlist : ∀ {cs : List Tree}, c ∈ cs → sizeOf c < sizeOf cs := List.sizeOf_lt_of_mem
  have hopt : ∀ {r : Option Tree}, c ∈ r.toList → sizeOf c < sizeOf r := by
    intro r hr
    cases r with
    | none => cases hr
    | some t => obtain rfl := List.mem_singleton.1 hr; simp
  cases s with
  | constant | parameter | default => cases h
  | convert | newArrayOfLength | lambda | unary =>
    obtain rfl := List.mem_singleton.1 h
    simp only [convert.sizeOf_spec, newArrayOfLength.sizeOf_spec, lambda.sizeOf_spec, unary.sizeOf_spec]
    omega
  | arrayIndex | compare | arith | logical | coalesce | assign =>
    simp only [children, List.mem_cons, List.not_mem_nil, or_false] at h
    simp only [arrayIndex.sizeOf_spec, compare.sizeOf_spec, arith.sizeOf_spec, logical.sizeOf_spec,
      coalesce.sizeOf_spec, assign.sizeOf_spec]
    rcases h with rfl | rfl <;> omega
  | cond t a b =>
    simp only [children, List.mem_cons, List.not_mem_nil, or_false] at h
    rw [cond.sizeOf_spec]
    rcases h with rfl | rfl | rfl <;> omega
  | call r m args =>
    rcases List.mem_append.1 h with h | h
    · have := hopt h; simp; omega
    · have := hlist h; simp; omega
  | member | throw => have := hopt h; simp; omega
  | new _ cs | newArray _ cs | block _ cs => have : sizeOf c < sizeOf cs := hlist h; simp; omega
  | invoke | index =>
    rcases List.mem_cons.1 h with rfl | h
    · simp; omega
    · have := hlist h; simp; omega
  | memberInit t bs =>
    rcases List.mem_cons.1 h with rfl | h
    · simp; omega
    · obtain ⟨b, hb, rfl⟩ := List.mem_map.1 h
      have := List.sizeOf_lt_of_mem hb
      cases b
      simp at this ⊢
      omega
  | guarded b hs fin =>
    rcases List.mem_append.1 h with h | h
    · rcases List.mem_cons.1 h with rfl | h
      · simp; omega
      · obtain ⟨k, hk, hc⟩ := List.mem_flatMap.1 h
        have hlt := List.sizeOf_lt_of_mem hk
        have hck : sizeOf c < sizeOf k := by
          obtain ⟨test, var, filter, body⟩ := k
          rcases List.mem_append.1 hc with hc | hc
          · have : sizeOf c < sizeOf filter := hopt hc; simp; omega
          · obtain rfl := List.mem_singleton.1 hc; simp only [CatchClause.mk.sizeOf_spec]; omega
        simp
        omega
    · have := hopt h; simp; omega

theorem children_map {C D : Type} (f : C → D) (s : Shape C) : (s.map f).children = s.children.map f := by
  cases s with
  | guarded b cs fin =>
    simp only [map, children, List.map_append, List.map_cons, List.flatMap_map, List.map_flatMap, Option.toList_map]
    congr 3
    funext c
    simp [CatchClause.map, CatchClause.children, Option.toList_map]
  | memberInit t bs => simp [map, children, Binding.map]
  | call r m args | member r m | throw e => simp [map, children, Option.toList_map]
  | _ => simp [map, children]

theorem body_mem_children {C : Type} {body : C} {ks : List (CatchClause C)} {final : Option C} {k : CatchClause C}
    (hk : k ∈ ks) : k.body ∈ (guarded body ks final).children := by
  simp only [children, List.mem_append, List.mem_cons, List.mem_flatMap]
  exact .inl (.inr ⟨k, hk, by simp [CatchClause.children]⟩)

attribute [simp] children

end Shape

namespace Tree

/-- Induction over trees: what holds of a node if it holds of its children holds of every tree. -/
theorem induct {motive : Tree → Prop}
    (node : ∀ id ty s, (∀ c ∈ Shape.children s, motive c) → motive (.node id ty s)) : ∀ t, motive t
  | .node id ty s => node id ty s fun c hc =>
    have : sizeOf c < sizeOf s := Shape.sizeOf_child hc
    induct node c
termination_by t => sizeOf t
decreasing_by simp; omega

/-- All nodes of a tree, the node itself and those below it, have a property. -/
inductive All (P : NodeId → Ty → Shape Tree → Prop) : Tree → Prop
  | node {id : NodeId} {ty : Ty} {s : Shape Tree} (here : P id ty s) (below : ∀ c ∈ s.children, All P c) :
    All P (.node id ty s)

variable {P : NodeId → Ty → Shape Tree → Prop}

theorem All.root {id : NodeId} {ty : Ty} {s : Shape Tree} (h : All P (.node id ty s)) : P id ty s := by
  cases h
  assumption

theorem All.children {id : NodeId} {ty : Ty} {s : Shape Tree}
    (h : All P (.node id ty s)) : ∀ c ∈ s.children, All P c := by
  cases h
  assumption

theorem all_node {id : NodeId} {ty : Ty} {s : Shape Tree} :
    All P (.node id ty s) ↔ P id ty s ∧ ∀ c ∈ s.children, All P c :=
  ⟨fun h => ⟨h.root, h.children⟩, fun h => .node h.1 h.2⟩

theorem All.mono {Q : NodeId → Ty → Shape Tree → Prop} (hPQ : ∀ id ty s, P id ty s → Q id ty s) {t : Tree}
    (h : All P t) : All Q t := by
  induction h with
  | node here _ ih => exact .node (hPQ _ _ _ here) ih

end Tree

/-! ## Trees that are formed well -/

/-- A method stands behind an operator or a conversion node of a type: it is static, takes the node's
operands, and returns nothing exactly if the node has no value. -/
structure Method.Backs (m : Method) (operands : Nat) (ty : Ty) : Prop where
  static : m.isStatic = true
  params : m.params.length = operands
  void : ty.isVoid = m.ret.isVoid

/-- A node is formed well: it passes as many arguments as are declared, methods behind it fit, and it
has a value unless its kind allows for none. -/
def Shape.WellFormed (operators : Overloads) (ty : Ty) : Shape Tree → Prop
  | .convert _ _ (some m) => m.Backs 1 ty
  | .convert _ _ none | .arrayIndex _ _ | .member _ _ | .newArray _ _ | .newArrayOfLength _ _ => ty.isVoid = false
  | .unary _ _ _ | .logical _ _ _ | .coalesce _ _ => ty.isVoid = false
  | .call _ m args => args.length = m.params.length ∧ ty.isVoid = m.ret.isVoid
  | .new ctor args => args.length = ctor.params.length ∧ ty.isVoid = false
  | .index _ ix args => args.length = ix.params.length ∧ ty.isVoid = false
  | .compare op l r given =>
    match CompareForm.choose? operators op l.ty r.ty given with
    | some (.method m) => m.Backs 2 ty
    | _ => ty.isVoid = false
  | .arith op l r checked given =>
    match ArithForm.choose? operators op l.ty r.ty checked given with
    | some (.method m) => m.Backs 2 ty
    | _ => ty.isVoid = false
  | _ => True

/-- All nodes of a tree are formed well. -/
def Tree.WellFormed (operators : Overloads) : Tree → Prop :=
  Tree.All fun _ ty s => s.WellFormed operators ty

end ExprCompiler
