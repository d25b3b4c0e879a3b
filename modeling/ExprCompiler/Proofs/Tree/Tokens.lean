/-
Uses of tokens and what declares them. A use stands in the scope of the blocks, catch clauses and lambdas around
it; it is free if none of these declares its token. The free tokens of a node are those of its children without
what the node itself declares around each of them.
-/
import ExprCompiler.Proofs.Tree.Rename

namespace ExprCompiler

/-! ## Scopes -/

namespace Shape

variable {C D : Type}

/-- The tokens that a node uses itself. -/
def tokens : Shape C → List Param
  | .parameter p => [p]
  | _ => []

/-- The children in evaluation order, each with the tokens that the node declares around it. -/
@[simp] def enclosed : Shape C → List (List Param × C)
  | .lambda params body _ => [(params, body)]
  | .block vars body => body.map fun c => (vars, c)
  | .guarded body clauses final =>
    ([], body) :: clauses.flatMap (fun k => k.children.map fun c => (k.var.toList, c)) ++
      final.toList.map fun c => ([], c)
  | s => s.children.map fun c => ([], c)

@[simp] theorem tokens_map (f : C → D) (s : Shape C) : (s.map f).tokens = s.tokens := by
  cases s <;> rfl

theorem enclosed_snd (s : Shape C) : s.enclosed.map Prod.snd = s.children := by
  have hpairs : ∀ (vars : List Param) (cs : List C), (cs.map fun c => (vars, c)).map Prod.snd = cs := by
    intro vars cs
    rw [List.map_map]
    exact List.map_id cs
  cases s with
  | guarded body clauses final =>
    simp only [enclosed, children, List.map_append, List.map_cons, List.map_flatMap, hpairs]
  | _ => simp only [enclosed, children, hpairs, List.map_cons, List.map_nil]

theorem enclosed_map (f : C → D) (s : Shape C) : (s.map f).enclosed = s.enclosed.map fun c => (c.1, f c.2) := by
  cases s with
  | guarded body clauses final =>
    simp [map, enclosed, List.flatMap_map, List.map_flatMap, CatchClause.map, CatchClause.children, Option.toList_map,
      Function.comp_def]
  | memberInit t bs => simp [map, enclosed, children, Binding.map]
  | _ => simp [map, enclosed, children, Option.toList_map, Function.comp_def]

theorem mem_children_of_enclosed {s : Shape C} {c : List Param × C} (h : c ∈ s.enclosed) : c.2 ∈ s.children := by
  rw [← enclosed_snd]
  exact List.mem_map_of_mem h

end Shape

/-! ## Uses -/

/-- A use of a token, with all that is declared where it stands. -/
structure TokenUse where
  token : Param
  declared : List Param

/-- Nothing around the use declares its token. -/
def TokenUse.Free (u : TokenUse) : Prop :=
  u.token ∉ u.declared

instance (u : TokenUse) : Decidable u.Free :=
  inferInstanceAs (Decidable (u.token ∉ u.declared))

namespace Tree

/-- The uses of tokens in a tree around which some tokens are declared, from left to right. -/
def uses : Tree → List Param → List TokenUse :=
  fold fun _ _ s around =>
    s.tokens.map (fun p => ⟨p, around⟩) ++ s.enclosed.flatMap fun c => c.2.meaning (c.1 ++ around)

/-- The tokens of the free uses in a tree around which some tokens are declared. -/
def freeTokens (t : Tree) (around : List Param) : List Param :=
  ((t.uses around).filter fun u => u.Free).map TokenUse.token

/-- The tokens of the uses that the tree itself leaves free. -/
def free : Tree → List Param :=
  fold fun _ _ s => s.tokens ++ s.enclosed.flatMap fun c => c.2.meaning.filter fun p => p ∉ c.1

variable (id : NodeId) (ty : Ty) (s : Shape Tree)

theorem uses_node (around : List Param) : (Tree.node id ty s).uses around =
    s.tokens.map (fun p => ⟨p, around⟩) ++ s.enclosed.flatMap fun c => c.2.uses (c.1 ++ around) := by
  rw [uses, fold_node, Shape.tokens_map, Shape.enclosed_map, List.flatMap_map]
  rfl

theorem free_node : (Tree.node id ty s).free =
    s.tokens ++ s.enclosed.flatMap fun c => c.2.free.filter fun p => p ∉ c.1 := by
  rw [free, fold_node, Shape.tokens_map, Shape.enclosed_map, List.flatMap_map]
  rfl

theorem free_lambda (params : List Param) (body : Tree) (name : Option String) :
    (Tree.node id ty (.lambda params body name)).free = body.free.filter fun p => p ∉ params := by
  simp [free_node, Shape.tokens, Shape.enclosed]

/-- What is declared around a tree takes tokens out of its free ones. -/
theorem freeTokens_eq (t : Tree) (around : List Param) : t.freeTokens around = t.free.filter fun p => p ∉ around := by
  induction t using Tree.induct generalizing around with
  | node id ty s ih =>
    have hown : ((s.tokens.map fun p => (⟨p, around⟩ : TokenUse)).filter fun u => u.Free).map TokenUse.token =
        s.tokens.filter fun p => p ∉ around := by
      rw [List.filter_map, List.map_map]
      exact List.map_id _
    have hchild : ∀ c ∈ s.enclosed, ((c.2.uses (c.1 ++ around)).filter fun u => u.Free).map TokenUse.token =
        (c.2.free.filter fun p => p ∉ c.1).filter fun p => p ∉ around := by
      intro c hc
      have hin := ih c.2 (Shape.mem_children_of_enclosed hc) (c.1 ++ around)
      rw [freeTokens] at hin
      rw [hin, List.filter_filter]
      simp [and_comm]
    rw [freeTokens, uses_node, free_node, List.filter_append, List.map_append, List.filter_append, hown,
      List.filter_flatMap, List.map_flatMap, List.filter_flatMap]
    exact congrArg (_ ++ ·) (congrArg List.flatten (List.map_congr_left hchild))

/-! ## Lambdas -/

/-- The lambda nodes of a tree, one entry for each path that leads to one. -/
def lambdas : Tree → List Tree :=
  fold fun id ty s =>
    match s with
    | .lambda params body name => .node id ty (.lambda params body.node name) :: body.meaning
    | s => s.children.flatMap Child.meaning

theorem lambdas_lambda (params : List Param) (body : Tree) (name : Option String) :
    (Tree.node id ty (.lambda params body name)).lambdas = .node id ty (.lambda params body name) :: body.lambdas := by
  rw [lambdas, fold_node]
  rfl

theorem lambdas_node (h : ∀ params body name, s ≠ .lambda params body name) :
    (Tree.node id ty s).lambdas = s.children.flatMap lambdas := by
  have hchildren : ((s.map (.of lambdas)).children.flatMap Child.meaning) = s.children.flatMap lambdas := by
    rw [Shape.children_map, List.flatMap_map]
    rfl
  rw [← hchildren, lambdas, fold_node]
  cases s with
  | lambda params body name => exact absurd rfl (h params body name)
  | _ => rfl

theorem lambdas_child {id : NodeId} {ty : Ty} {s : Shape Tree} {t : Tree} (h : t ∈ s.children) :
    t.lambdas.Sublist (Tree.node id ty s).lambdas := by
  by_cases hs : ∃ params body name, s = .lambda params body name
  · obtain ⟨params, body, name, rfl⟩ := hs
    obtain rfl := List.mem_singleton.1 h
    rw [lambdas_lambda]
    exact List.sublist_cons_self _ _
  · rw [lambdas_node id ty s fun params body name hl => hs ⟨params, body, name, hl⟩]
    exact List.sublist_flatten_of_mem (List.mem_map_of_mem h)

end Tree

end ExprCompiler
