/-
Handler tables of compiled units. The entries of every unit that a compilation adds are those of protected regions of
the tree, and of two entries that apply at an instruction the one of the inner region stands first. So whoever searches
a table from its front finds the innermost handler.
-/
import ExprCompiler.Proofs.Compile.Discipline
import ExprCompiler.Proofs.Emit.Captures

namespace ExprCompiler

namespace Tree

/-- The kinds of protected regions that occur in a tree. -/
def Guards (t : Tree) : Tries := fun tests final =>
  ∃ id ty body clauses last, Occurs (.node id ty (.guarded body clauses last)) t ∧
    clauses.map CatchClause.test = tests ∧ last.isSome = final

theorem tried_of_occurs {P : Tries} {t : Tree} (h : ∀ id ty s, Occurs (.node id ty s) t → s.Tried P) : t.Tried P := by
  induction t using Tree.induct with
  | node id ty s ih => exact .node (h id ty s .here) fun c hc => ih c hc fun id ty s hs => h id ty s (.inside hc hs)

theorem tried_guards (t : Tree) : t.Tried t.Guards := by
  refine tried_of_occurs fun id ty s hs => ?_
  cases s with
  | guarded body clauses last => exact ⟨id, ty, body, clauses, last, hs, rfl, rfl⟩
  | _ => trivial

end Tree

/-- The entries of a unit for a tree stand with the inner ones first. Each is an entry of a protected region of the
tree, whose entries stand in the order of its clauses, and that of its finally body behind them. -/
structure CodeUnit.InnerFirst (t : Tree) (u : CodeUnit) : Prop where
  inside : u.handlers.Pairwise Handler.Inside
  listed : ∀ e ∈ u.handlers, Guard.Lists t.Guards u.handlers e

namespace CompileM

theorem Yields.innerFirst {c : Compiler} {s : Session} {t : Tree} {x : CompileM Artifact}
    {Q : Artifact → Session → Prop}
    (h : Yields t.Guards c s x Q) (i : Nat) (u : CodeUnit) (hi : s.units.size ≤ i) (hu : (x c s).2.units[i]? = some u) :
    u.InnerFirst t := by
  have htable := (h.1.added i u hi hu).table
  exact ⟨htable.pairwise, htable.lists⟩

/-- All units that are added for a tree that is formed well, that of the root and those of nested lambdas, have their
inner entries first. -/
theorem compile_inner_first {c : Compiler} {t : Tree} (h : t.WellFormed c.operators) (s : Session) :
    (∀ params requested i u, s.units.size ≤ i → (compile t params requested c s).2.units[i]? = some u →
      u.InnerFirst t) ∧
      ∀ i u, s.units.size ≤ i → (compileLambda t c s).2.units[i]? = some u → u.InnerFirst t := by
  have ht := t.tried_guards
  refine ⟨fun params requested => (yields_root h "root" params requested ht).innerFirst, ?_⟩
  have hlambda : Yields t.Guards c s (compileLambda t) fun _ _ => True := by
    obtain ⟨id, ty, shape⟩ := t
    cases shape with
    | lambda params body name =>
      have hmem : body ∈ (Shape.lambda params body name).children := List.mem_singleton_self body
      exact (yields_root (h.children body hmem) (name.getD "lambda") params ty.signature?
        (ht.children body hmem)).mono fun _ _ _ _ => trivial
    | _ => exact .decline _
  exact hlambda.innerFirst

/-- A region with a clause in the body of one with two clauses and a finally body. -/
def guardedTwice : Tree :=
  let i32 : Ty := .int .i32
  let number (n : Nat) : Tree := .node n i32 (.constant (.i32 0))
  let clause (cls : Class) (n : Nat) : CatchClause Tree :=
    { test := .cls cls, var := none, filter := none, body := number n }
  .node 6 i32 (.guarded (.node 5 i32 (.guarded (number 0) [clause .overflow 1] none))
    [clause .divideByZero 2, clause .exception 3] (some (number 4)))

theorem compile_inner_first_guardedTwice :
    ((compile guardedTwice [] none ⟨{ nativeEnabled := false }, []⟩ {}).2.units[0]?.any fun u =>
      u.handlers.map (fun e => (e.start, e.stop, e.target)) == [(0, 3, 3), (0, 10, 10), (0, 10, 14), (0, 18, 19)]) =
        true ∧
    ∀ u, (compile guardedTwice [] none ⟨{ nativeEnabled := false }, []⟩ {}).2.units[0]? = some u →
      u.InnerFirst guardedTwice := by
  have h : guardedTwice.WellFormed [] := by
    simp [guardedTwice, Tree.WellFormed, Tree.all_node, Shape.WellFormed, CatchClause.children]
  exact ⟨by decide +kernel, fun u =>
    (compile_inner_first (c := ⟨{ nativeEnabled := false }, []⟩) h {}).1 [] none 0 u (Nat.le_refl 0)⟩

end CompileM

end ExprCompiler
