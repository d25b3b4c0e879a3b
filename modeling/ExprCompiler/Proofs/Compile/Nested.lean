/-
What a compilation that succeeds leaves behind at every depth: each lambda that some captures list was compiled,
its unit is the code of the lambda's body over what that unit captures in turn, and the captured constants are
nodes of the tree.
-/
import ExprCompiler.Proofs.Compile.Captures
import ExprCompiler.Proofs.Compile.Outline

namespace ExprCompiler

/-- The units of a session are there in another one. -/
def Session.Keeps (s s' : Session) : Prop :=
  ∀ (i : Nat) u, s.units[i]? = some u → s'.units[i]? = some u

theorem Session.Keeps.trans {s s' s'' : Session} (h : s.Keeps s') (h' : s'.Keeps s'') : s.Keeps s'' :=
  fun i u hu => h' i u (h i u hu)

/-! ## Units and captures -/

/-- A captured constant is a node of the tree that fits into no instruction. -/
def CapturedConstant.IsOf (root : Tree) (r : CapturedConstant) : Prop :=
  Tree.Occurs (.node r.node r.ty (.constant r.value)) root ∧ r.value.isImmediate = false

/-- The record of a lambda of the tree that was compiled, as were those below it. -/
inductive NestedOf.Compiled (c : Compiler) (root : Tree) (units : Array CodeUnit) : Nested → Prop
  | record {id : NodeId} {ty : Ty} {params : List Param} {body : Tree} {name : Option String} {sig : Signature}
      {capture : Capture} {ref : UnitRef}
      (node : Tree.Occurs (.node id ty (.lambda params body name)) root) (signature : ty.signature? = some sig)
      (captured : capture.plain = body.captures params)
      (linked : CodeUnit.LinkedFor c units ref (name.getD "lambda") body params sig.ret capture)
      (constants : ∀ r ∈ capture.constants, r.IsOf root) (nested : ∀ n ∈ capture.nested,
        NestedOf.Compiled c root units n) :
    NestedOf.Compiled c root units ⟨id, .ofLayout ref (capture.layout? c.settings.fixedFieldLimit),
      if capture.isEmpty then none else some capture, sig⟩

/-- All that some captures list is of the tree, and the lambdas are compiled. -/
structure Capture.Compiled (c : Compiler) (root : Tree) (units : Array CodeUnit) (capture : Capture) : Prop where
  constants : ∀ r ∈ capture.constants, r.IsOf root
  nested : ∀ n ∈ capture.nested, n.Compiled c root units

section

variable {c : Compiler} {root : Tree} {s s' : Session}

theorem CodeUnit.LinkedFor.keep {ref : UnitRef} {name : String} {body : Tree} {params : List Param} {ret : Ty}
    {capture : Capture} (h : CodeUnit.LinkedFor c s.units ref name body params ret capture) (hs : s.Keeps s') :
    CodeUnit.LinkedFor c s'.units ref name body params ret capture := by
  obtain ⟨u, native, hcode, hu, hn⟩ := h.code
  exact ⟨u, native, hcode, hs _ _ hu, hn⟩

theorem NestedOf.Compiled.keep {n : Nested} (h : n.Compiled c root s.units) (hs : s.Keeps s') :
    n.Compiled c root s'.units := by
  induction h with
  | record node signature captured linked constants _ ih =>
    exact .record node signature captured (linked.keep hs) constants ih

/-- What a compiled lambda captures. -/
theorem NestedOf.Compiled.capture {n : Nested} (h : n.Compiled c root s.units) {child : Capture}
    (hc : n.capture = some child) : child.Compiled c root s.units := by
  cases h with
  | record node signature captured linked constants nested =>
    simp only [Option.ite_none_left_eq_some, Option.some.injEq] at hc
    obtain ⟨-, rfl⟩ := hc
    exact ⟨constants, nested⟩

/-- Compiled lambdas of one node differ in their artifacts only. -/
theorem NestedOf.Compiled.plain_eq (hroot : root.SharesNodes) {n n' : Nested} {units : Array CodeUnit}
    (h : n.Compiled c root units) (h' : n'.Compiled c root units) (hnode : n'.node = n.node) : n'.plain = n.plain := by
  cases h with
  | @record id ty params body name sig capture ref node signature captured _ _ _ =>
    cases h' with
    | @record id' ty' params' body' name' sig' capture' ref' node' signature' captured' _ _ _ =>
      have hid : id' = id := hnode
      subst hid
      have hsame := hroot _ _ node' node rfl
      cases hsame
      rw [signature] at signature'
      cases signature'
      have hplain : capture'.plain = capture.plain := captured'.trans captured.symm
      have hempty : capture'.isEmpty = capture.isEmpty := by rw [← Capture.plain_isEmpty, hplain, Capture.plain_isEmpty]
      simp only [NestedOf.plain, hempty]
      split <;> simp [hplain]

namespace Capture.Compiled

variable {capture : Capture}

theorem empty (c : Compiler) (root : Tree) (units : Array CodeUnit) : ({} : Capture).Compiled c root units :=
  ⟨by simp, by simp⟩

theorem keep (h : capture.Compiled c root s.units) (hs : s.Keeps s') : capture.Compiled c root s'.units :=
  ⟨h.constants, fun n hn => (h.nested n hn).keep hs⟩

/-- Captures that have grown by what is compiled. -/
theorem grow {capture' : Capture} {cs : List CapturedConstant} {ns : List Nested} (h : capture.Compiled c root s.units)
    (hg : capture.Grows cs ns capture') (hcs : ∀ r ∈ cs, r.IsOf root) (hns : ∀ n ∈ ns, n.Compiled c root s.units) :
    capture'.Compiled c root s.units where
  constants r hr := (hg.constants r hr).elim (h.constants r) (hcs r)
  nested n hn := (hg.nested n hn).elim (h.nested n) (hns n)

end Capture.Compiled

end

/-! ## Compilations that succeed -/

/-- The units of a session stay. -/
def CompileM.keeping : Promise where
  change := Session.Keeps
  refusal _ := True
  of_units {s s'} h := by
    intro i u hu
    rw [h]
    exact hu
  trans := .trans
  unsupported _ := trivial

theorem CompileM.links_keeping {c : Compiler} {name : String} {body : Tree} {params : List Param} {ret : Ty}
    {capture : Capture} : keeping.Links c name body params ret capture where
  refused _ _ := trivial
  malformed _ _ _ _ _ := trivial
  lower _ _ _ _ _ := trivial
  push u native s _ i u' hu' := by
    obtain ⟨hlt, rfl⟩ := Array.getElem?_eq_some_iff.1 hu'
    exact Array.getElem?_push_lt hlt

namespace Analyze

open CompileM

variable {c : Compiler} {root : Tree}

/-- An analysis that succeeds adds to the captures only what is of the tree and compiled. -/
def Finds (c : Compiler) (root : Tree) (x : AnalyzeM Unit) : Prop :=
  ∀ scope capture s, capture.Compiled c root s.units →
    keeping.Kept c s (x scope capture) fun r s' => r.2.Compiled c root s'.units

/-- What is known of the captures of a body. -/
def Compiling (c : Compiler) (root body : Tree) (params : List Param) (capture : Capture) (s : Session) : Prop :=
  capture.Compiled c root s.units ∧ capture.plain = body.captures params

theorem Finds.compiling {body : Tree} (h : Finds c root body.analysis) (params : List Param) (s : Session) :
    keeping.Kept c s (body.analysis ⟨params, []⟩ {}) fun r s' => Compiling c root body params r.2 s' :=
  (h ⟨params, []⟩ {} s (.empty c root s.units)).given fun _ _ hr => Found.plain ⟨s, hr⟩

theorem Recorded.compiled {s s' : Session} {id : NodeId} {ty : Ty} {params : List Param} {body : Tree}
    {name : Option String}
    {n : Nested} (h : Recorded keeping c s (Compiling c root body params) id ty params body name n s')
    (ho : Tree.Occurs (.node id ty (.lambda params body name)) root) : n.Compiled c root s'.units := by
  cases h with
  | record signature _ found after _ linked =>
    have hcompiled := found.1.keep after
    exact .record ho signature found.2 linked hcompiled.constants hcompiled.nested

/-- The analysis of a part of a tree. -/
theorem walks_finds : Walks (fun id => id) (fun t => t.Occurs root) fun _ x _ => Finds c root x where
  nil _ _ _ h := .of_pure h
  append hx hy scope capture s h := (hx scope capture s h).bind fun r s' _ hr => hy scope r.2 s' hr
  within _ _ _ _ hx _ capture s h := hx _ capture s h
  decline _ _ _ _ _ _ _ _ := .decline _
  child ho ht := (Tree.Occurs.of_child ht).trans ho
  constant {id ty v} ho scope capture s h := by
    rw [constant_apply]
    refine .of_pure ?_
    split
    · exact h
    · rename_i himm
      refine h.grow (.addConstant capture _) (fun r hr => ?_) (by simp)
      obtain rfl := List.mem_singleton.1 hr
      exact ⟨ho, by simpa using himm⟩
  parameter _ scope capture s h := by
    rw [addParam_apply]
    exact .of_pure (h.grow (.capturing _ capture _) (by simp) (by simp))
  lambda {id ty params body name} ho hx scope capture s h := by
    rw [lambda_apply]
    split
    · exact .of_pure h
    · refine (kept_compileNested (fun s₁ _ => Finds.compiling hx params s₁) fun _ _ _ _ => links_keeping).bind
        fun n s' hs hn => .of_pure ?_
      have hn := hn.compiled ho
      have hchild : (n.capture.getD {}).Compiled c root s'.units := by
        rcases hc : n.capture with _ | child
        · exact .empty c root s'.units
        · exact hn.capture hc
      refine (h.keep hs).grow (.absorb _ capture n) hchild.constants fun m hm => ?_
      rcases List.mem_append.1 hm with hm | hm
      · exact hchild.nested m hm
      · obtain rfl := List.mem_singleton.1 hm
        exact hn
  inner _ _ h := h

end Analyze

/-! ## Roots -/

namespace CompileM

variable {c : Compiler} {s s' : Session}

/-- What a closure made for a root holds. -/
theorem items_of_materialize {capture : Capture} {l : Layout} {k : Closure} (h : capture.materialize l = .ok k) :
    k.items = (capture.constants.map CapturedConstant.value ++ capture.nested.map fun n =>
      n.artifact.itemValue).toArray := by
  unfold Capture.materialize Layout.instantiate at h
  split at h
  · split at h
    · cases h
    · split at h <;> cases h
      rfl
  · cases h

/-- A root that was compiled: its unit, what it captures and the closure that holds it. Roots capture no
parameters. -/
structure Rooted (c : Compiler) (t : Tree) (name : String) (params : List Param) (ret : Ty) (a : Artifact) (s : Session)
    (capture : Capture) : Prop where
  compiled : capture.Compiled c t s.units
  captured : capture.plain = t.captures params
  closed : capture.params = []
  linked : CodeUnit.LinkedFor c s.units a.unit name t params ret capture
  holds : HeldBy capture s.world (capture.layout? c.settings.fixedFieldLimit) a

/-- The function that a root is, with a closure if the root captures anything. -/
theorem Rooted.callable {t : Tree} {name : String} {params : List Param} {ret : Ty} {a : Artifact} {capture : Capture}
    (h : Rooted c t name params ret a s capture) :
    ∃ closure, a.callable? = some (.code a.unit closure) ∧ closure.isSome = !capture.isEmpty ∧
      ∀ r, closure = some r → ∃ k, s.world.closures[r.id]? = some k ∧ k.items =
        (capture.constants.map CapturedConstant.value ++ capture.nested.map fun n => n.artifact.itemValue).toArray := by
  have hholds := h.holds
  unfold Capture.layout? at hholds
  cases hempty : capture.isEmpty <;> cases a <;> simp only [hempty, Bool.false_eq_true, if_false, if_true] at hholds <;>
    try exact hholds.elim
  · obtain ⟨k, hk, hget⟩ := hholds
    refine ⟨_, rfl, rfl, ?_⟩
    rintro r ⟨⟩
    exact ⟨k, hget, items_of_materialize hk⟩
  · exact ⟨none, rfl, rfl, by rintro r ⟨⟩⟩

theorem root_rooted {name : String} {t : Tree} {params : List Param} {requested : Requested} {a : Artifact}
    (h : root name t params requested c s = (.ok a, s')) :
    ∃ ret capture, requested.resultOf t.ty params = .ok ret ∧ Rooted c t name params ret a s' capture := by
  have hfinds : Analyze.Finds c t t.analysis := Analyze.walks_finds.analysis .here
  obtain ⟨-, capture, ret, ha⟩ := (kept_root (fun s₁ _ => hfinds.compiling params s₁) (fun _ _ _ _ _ => trivial)
    (fun _ _ _ _ => links_keeping) fun _ _ _ _ _ => trivial).result h
  obtain ⟨s₁, -, hkeeps, hfound, -⟩ := ha.found
  exact ⟨ret, capture, ha.result, hfound.1.keep hkeeps, hfound.2, ha.closed, ha.linked, ha.holds⟩

end CompileM

end ExprCompiler
