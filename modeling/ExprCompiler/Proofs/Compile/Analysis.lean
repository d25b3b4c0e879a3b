/-
The analysis of a body, step by step. A node adds what it captures to the captures so far: a constant itself, a token
unless it is declared, a lambda together with what the lambda's unit captures. What can be said of a whole analysis is
put together from what its nodes add, in the order of the children.
-/
import ExprCompiler.Proofs.Compile.Rules
import ExprCompiler.Proofs.Emit.Captures

namespace ExprCompiler

/-! ## Captures that grow -/

namespace Capture

/-- All nodes of some captures are nodes of others. -/
structure Within (c c' : Capture) : Prop where
  constants : c.constantNodes ⊆ c'.constantNodes
  nested : c.nestedNodes ⊆ c'.nestedNodes

theorem Within.refl (c : Capture) : c.Within c := ⟨List.Subset.refl _, List.Subset.refl _⟩

variable {c c' : Capture}

theorem Within.trans {c'' : Capture} (h : c.Within c') (h' : c'.Within c'') : c.Within c'' :=
  ⟨List.Subset.trans h.constants h'.constants, List.Subset.trans h.nested h'.nested⟩

/-- Adds a parameter unless it is declared. -/
def capturing (declared : Param → Bool) (c : Capture) (p : Param) : Capture :=
  if declared p then c else (c.addParam p).2

/-- Takes over what a nested lambda captures, and the lambda itself. -/
def absorb (declared : Param → Bool) (c : Capture) (n : Nested) : Capture :=
  let child := n.capture.getD {}
  let c := child.params.foldl (capturing declared) c
  let c := child.constants.foldl (fun c r => (c.addConstant r).2) c
  let c := child.nested.foldl (fun c m => (c.addNested m).2) c
  (c.addNested n).2

/-- Given constants and lambdas have been added, except those whose nodes were there. -/
structure Grows (c : Capture) (cs : List CapturedConstant) (ns : List Nested) (c' : Capture) : Prop where
  within : c.Within c'
  constants : ∀ r ∈ c'.constants, r ∈ c.constants ∨ r ∈ cs
  nested : ∀ n ∈ c'.nested, n ∈ c.nested ∨ n ∈ ns
  taken : ∀ r ∈ cs, r.node ∈ c'.constantNodes
  taken_nested : ∀ n ∈ ns, n.node ∈ c'.nestedNodes
  nodup : c.constantNodes.Nodup → c'.constantNodes.Nodup
  nodup_nested : c.nestedNodes.Nodup → c'.nestedNodes.Nodup

namespace Grows

theorem refl (c : Capture) : c.Grows [] [] c where
  within := .refl c
  constants _ hr := .inl hr
  nested _ hn := .inl hn
  taken _ hr := by cases hr
  taken_nested _ hn := by cases hn
  nodup := id
  nodup_nested := id

theorem trans {c'' : Capture} {cs cs' : List CapturedConstant} {ns ns' : List Nested} (h : c.Grows cs ns c')
    (h' : c'.Grows cs' ns' c'') : c.Grows (cs ++ cs') (ns ++ ns') c'' where
  within := h.within.trans h'.within
  constants r hr := by
    rcases h'.constants r hr with hr | hr
    · exact (h.constants r hr).imp_right fun hr => List.mem_append_left cs' hr
    · exact .inr (List.mem_append_right cs hr)
  nested n hn := by
    rcases h'.nested n hn with hn | hn
    · exact (h.nested n hn).imp_right fun hn => List.mem_append_left ns' hn
    · exact .inr (List.mem_append_right ns hn)
  taken r hr := by
    rcases List.mem_append.1 hr with hr | hr
    · exact h'.within.constants (h.taken r hr)
    · exact h'.taken r hr
  taken_nested n hn := by
    rcases List.mem_append.1 hn with hn | hn
    · exact h'.within.nested (h.taken_nested n hn)
    · exact h'.taken_nested n hn
  nodup hc := h'.nodup (h.nodup hc)
  nodup_nested hc := h'.nodup_nested (h.nodup_nested hc)

theorem addParam (c : Capture) (p : Param) : c.Grows [] [] (c.addParam p).2 := by
  unfold Capture.addParam
  split
  · exact .refl c
  · exact { refl c with within := ⟨List.Subset.refl _, List.Subset.refl _⟩ }

theorem addConstant (c : Capture) (r : CapturedConstant) : c.Grows [r] [] (c.addConstant r).2 := by
  unfold Capture.addConstant
  split
  · rename_i hfound
    obtain ⟨a, ha, hnode⟩ : ∃ a ∈ c.constants, a.node = r.node := by
      simpa [constantIndex?, List.findIdx?_isSome] using hfound
    refine { refl c with constants := fun _ hr => .inl hr, taken := fun r' hr' => ?_ }
    obtain rfl := List.mem_singleton.1 hr'
    exact hnode ▸ List.mem_map_of_mem ha
  · rename_i hfound
    have hnew : r.node ∉ c.constantNodes := by
      simpa [constantIndex?, List.findIdx?_isSome, constantNodes] using hfound
    refine { refl c with
      within := ⟨by simp [constantNodes], by simp [nestedNodes]⟩
      constants := fun r' hr' => List.mem_append.1 hr'
      taken := fun r' hr' => ?_
      nodup := fun hc => ?_ }
    · obtain rfl := List.mem_singleton.1 hr'
      simp [constantNodes]
    · show (List.map CapturedConstant.node (c.constants ++ [r])).Nodup
      rw [List.map_append, List.map_singleton]
      exact List.Nodup.append hc (List.nodup_singleton _) (List.disjoint_singleton.2 hnew)

theorem addNested (c : Capture) (n : Nested) : c.Grows [] [n] (c.addNested n).2 := by
  unfold Capture.addNested
  split
  · rename_i hfound
    obtain ⟨a, ha, hnode⟩ : ∃ a ∈ c.nested, a.node = n.node := by
      simpa [nestedIndex?, List.findIdx?_isSome] using hfound
    refine { refl c with nested := fun _ hn => .inl hn, taken_nested := fun n' hn' => ?_ }
    obtain rfl := List.mem_singleton.1 hn'
    exact hnode ▸ List.mem_map_of_mem ha
  · rename_i hfound
    have hnew : n.node ∉ c.nestedNodes := by
      simpa [nestedIndex?, List.findIdx?_isSome, nestedNodes] using hfound
    refine { refl c with
      within := ⟨by simp [constantNodes], by simp [nestedNodes]⟩
      nested := fun n' hn' => List.mem_append.1 hn'
      taken_nested := fun n' hn' => ?_
      nodup_nested := fun hc => ?_ }
    · obtain rfl := List.mem_singleton.1 hn'
      simp [nestedNodes]
    · show (List.map NestedOf.node (c.nested ++ [n])).Nodup
      rw [List.map_append, List.map_singleton]
      exact List.Nodup.append hc (List.nodup_singleton _) (List.disjoint_singleton.2 hnew)

theorem capturing (declared : Param → Bool) (c : Capture) (p : Param) : c.Grows [] [] (c.capturing declared p) := by
  unfold Capture.capturing
  split
  · exact .refl c
  · exact .addParam c p

/-- Items that are added one after the other. -/
theorem foldl {A : Type} {f : Capture → A → Capture} (cs : A → List CapturedConstant) (ns : A → List Nested)
    (h : ∀ c a, Grows c (cs a) (ns a) (f c a)) (xs : List A) (c : Capture) :
    c.Grows (xs.flatMap cs) (xs.flatMap ns) (xs.foldl f c) := by
  induction xs generalizing c with
  | nil => exact .refl c
  | cons a xs ih => exact (h c a).trans (ih (f c a))

theorem absorb (declared : Param → Bool) (c : Capture) (n : Nested) :
    c.Grows (n.capture.getD {}).constants ((n.capture.getD {}).nested ++ [n]) (c.absorb declared n) := by
  have hparams := foldl (fun _ => []) (fun _ => []) (capturing declared) (n.capture.getD {}).params c
  have hconstants := foldl (fun r => [r]) (fun _ => []) addConstant (n.capture.getD {}).constants
  have hnested := foldl (fun _ => []) (fun m => [m]) addNested (n.capture.getD {}).nested
  have h := hparams.trans ((hconstants _).trans ((hnested _).trans (addNested _ n)))
  have hnone : ∀ {A B : Type} (xs : List A), xs.flatMap (fun _ => ([] : List B)) = [] := by simp
  simpa [hnone, Capture.absorb] using h

end Grows

end Capture

/-! ## What nodes add -/

namespace Analyze

open CompileM

theorem lift_bind_apply {α : Type} (x : CompileM α) (k : α → AnalyzeM Unit) (scope : Scope) (capture : Capture) :
    (liftM x >>= k : AnalyzeM Unit) scope capture = x >>= fun a => k a scope capture := by
  show ((x >>= fun a => pure (a, capture)) >>= fun r => k r.1 scope r.2) = _
  rw [bind_assoc]
  simp only [pure_bind]

theorem constant_apply (id : NodeId) (ty : Ty) (v : Value) (scope : Scope) (capture : Capture) :
    node id ty (.constant v) scope capture =
      pure ((), if v.isImmediate then capture else (capture.addConstant ⟨id, v, ty⟩).2) := by
  cases h : v.isImmediate <;> simp only [node, h] <;> rfl

theorem addParam_apply (p : Param) (scope : Scope) (capture : Capture) :
    addParam p scope capture = pure ((), capture.capturing scope.declares p) := by
  show (if scope.declares p then pure () else modify fun c => (c.addParam p).2 : AnalyzeM Unit) scope capture = _
  unfold Capture.capturing
  split <;> rfl

theorem forM_apply {A : Type} {f : A → AnalyzeM Unit} {g : Capture → A → Capture} {scope : Scope}
    (h : ∀ a capture, f a scope capture = pure ((), g capture a)) (xs : List A) (capture : Capture) :
    xs.forM f scope capture = pure ((), xs.foldl g capture) := by
  induction xs generalizing capture with
  | nil => rfl
  | cons a xs ih =>
    show (f a scope capture >>= fun r => xs.forM f scope r.2) = _
    rw [h, pure_bind, ih, List.foldl_cons]

/-- A lambda is left out if it is there; any other is compiled, and what it captures is taken over. -/
theorem lambda_apply (id : NodeId) (ty : Ty) (params : List Param) (body : Analyzed) (name : Option String)
    (scope : Scope) (capture : Capture) :
    lambda id ty params body name scope capture =
      if (capture.nestedIndex? id).isSome then pure ((), capture)
      else compileNested id ty params body name >>= fun n => pure ((), capture.absorb scope.declares n) := by
  show (if (capture.nestedIndex? id).isSome then _ else _ : AnalyzeM Unit) scope capture = _
  split
  · rfl
  · refine (lift_bind_apply _ _ scope capture).trans ?_
    congr 1
    funext n
    obtain ⟨node, artifact, _ | child, sig⟩ := n
    · rfl
    · show (child.params.forM addParam scope capture >>= fun r => child.constants.forM addConstant scope r.2 >>=
        fun r =>
        child.nested.forM addNested scope r.2 >>= fun r => addNested _ scope r.2) = _
      rw [forM_apply (addParam_apply · scope), pure_bind, forM_apply (g := fun c r => (c.addConstant r).2)
        fun _ _ => rfl, pure_bind, forM_apply (g := fun c m => (c.addNested m).2) fun _ _ => rfl, pure_bind]
      rfl

/-! ## Walks -/

/-- A catch clause. -/
def clause (k : CatchClause Analyzed) : AnalyzeM Unit := do
  if k.filter.isSome then decline .catchFilter
  within k.var.toList k.body.meaning

/-- A node that is no item of its own. -/
def IsInner (s : Shape Tree) : Prop :=
  (∀ v, s ≠ .constant v) ∧ (∀ p, s ≠ .parameter p) ∧ ∀ params body name, s ≠ .lambda params body name

/-- What can be said of the analysis of trees, and of the analysis of the same trees with renamed nodes, one after the
other. The trees stand with what is declared around them. -/
structure Walks (f : NodeId → NodeId) (Good : Tree → Prop)
    (Q : List (List Param × Tree) → AnalyzeM Unit → AnalyzeM Unit → Prop) : Prop where
  nil : Q [] (pure ()) (pure ())
  append : ∀ {es fs x x' y y'}, Q es x x' → Q fs y y' → Q (es ++ fs) (x >>= fun _ => y) (x' >>= fun _ => y')
  within : ∀ (vars : List Param) (ts : List Tree) {x x'}, Q (ts.map fun t => ([], t)) x x' →
    Q (ts.map fun t => (vars, t)) (within vars x) (within vars x')
  decline : ∀ es u x x', Q es (liftM (decline u : CompileM Unit) >>= fun _ => x)
    (liftM (decline u : CompileM Unit) >>= fun _ => x')
  child : ∀ {id ty s t}, Good (.node id ty s) → t ∈ s.children → Good t
  constant : ∀ {id ty v}, Good (.node id ty (.constant v)) →
    Q [([], .node id ty (.constant v))] (node id ty (.constant v)) (node (f id) ty (.constant v))
  parameter : ∀ {id ty p}, Good (.node id ty (.parameter p)) →
    Q [([], .node id ty (.parameter p))] (addParam p) (addParam p)
  lambda : ∀ {id ty params body name}, Good (.node id ty (.lambda params body name)) →
    Q [([], body)] body.analysis (body.rename f).analysis →
    Q [([], .node id ty (.lambda params body name))] (lambda id ty params (.of Tree.analysis body) name)
      (lambda (f id) ty params (.of Tree.analysis (body.rename f)) name)
  inner : ∀ {id ty s x x'}, Good (.node id ty s) → IsInner s → Q s.enclosed x x' → Q [([], .node id ty s)] x x'

namespace Walks

variable {f : NodeId → NodeId} {Good : Tree → Prop}
    {Q : List (List Param × Tree) → AnalyzeM Unit → AnalyzeM Unit → Prop}

theorem forM (W : Walks f Good Q) {ts : List Tree} (h : ∀ t ∈ ts, Q [([], t)] t.analysis (t.rename f).analysis) :
    Q (ts.map fun t => ([], t)) ((ts.map (.of Tree.analysis)).forM Tree.Child.meaning)
      ((ts.map fun t => .of Tree.analysis (t.rename f)).forM Tree.Child.meaning) := by
  induction ts with
  | nil => exact W.nil
  | cons t ts ih => exact W.append (h t List.mem_cons_self) (ih fun t' ht' => h t' (List.mem_cons_of_mem t ht'))

/-- Clauses with filters are declined, and the others have no child but their body. -/
theorem clauses (W : Walks f Good Q) {ks : List (CatchClause Tree)}
    (h : ∀ k ∈ ks, Q [([], k.body)] k.body.analysis (k.body.rename f).analysis) :
    Q (ks.flatMap fun k => k.children.map fun t => (k.var.toList, t))
      ((ks.map (CatchClause.map (.of Tree.analysis))).forM clause)
      ((ks.map (CatchClause.map fun t => .of Tree.analysis (t.rename f))).forM clause) := by
  induction ks with
  | nil => exact W.nil
  | cons k ks ih =>
    refine W.append ?_ (ih fun k' hk' => h k' (List.mem_cons_of_mem k hk'))
    have hbody := W.within k.var.toList [k.body] (h k List.mem_cons_self)
    obtain ⟨test, var, _ | filter, body⟩ := k
    · exact hbody
    · exact W.decline _ _ _ _

theorem node (W : Walks f Good Q) {id : NodeId} {ty : Ty} {s : Shape Tree} (hs : IsInner s)
    (h : ∀ t ∈ s.children, Q [([], t)] t.analysis (t.rename f).analysis) :
    Q s.enclosed (node id ty (s.map (.of Tree.analysis)))
    (node (f id) ty (s.map fun t => .of Tree.analysis (t.rename f))) := by
  have hall : Q (s.children.map fun t => ([], t)) ((s.map (.of Tree.analysis)).children.forM Tree.Child.meaning)
      ((s.map fun t => .of Tree.analysis (t.rename f)).children.forM Tree.Child.meaning) := by
    rw [Shape.children_map, Shape.children_map]
    exact W.forM h
  cases s with
  | constant v => exact absurd rfl (hs.1 v)
  | parameter p => exact absurd rfl (hs.2.1 p)
  | lambda params body name => exact absurd rfl (hs.2.2 params body name)
  | block vars body => exact W.within vars body (W.forM h)
  | guarded body ks final =>
    have hclauses := W.clauses fun k hk => h k.body (Shape.body_mem_children hk)
    have hfinal : Q (final.toList.map fun t => ([], t)) ((final.map (.of Tree.analysis)).forM Tree.Child.meaning)
        ((final.map fun t => .of Tree.analysis (t.rename f)).forM Tree.Child.meaning) := by
      cases final with
      | none => exact W.nil
      | some e => exact h e (by simp)
    have hparts := W.append (h body (by simp)) (W.append hclauses hfinal)
    rw [← List.append_assoc] at hparts
    exact hparts
  | _ => exact hall

theorem analysis (W : Walks f Good Q) {t : Tree} (ht : Good t) : Q [([], t)] t.analysis (t.rename f).analysis := by
  induction t using Tree.induct with
  | node id ty s ih =>
    have h : ∀ t ∈ s.children, Q [([], t)] t.analysis (t.rename f).analysis := fun t hmem => ih t hmem (W.child ht hmem)
    rw [Tree.rename_node, Tree.analysis, Tree.fold_node, Tree.fold_node, Shape.map_map]
    cases s with
    | constant v => exact W.constant ht
    | parameter p => exact W.parameter ht
    | lambda params body name => exact W.lambda ht (h body (by simp))
    | _ => exact W.inner ht ⟨by simp, by simp, by simp⟩ (W.node ⟨by simp, by simp, by simp⟩ h)

end Walks

end Analyze

end ExprCompiler
