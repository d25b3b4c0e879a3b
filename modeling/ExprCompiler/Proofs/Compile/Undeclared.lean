/-
When a token is reported as undeclared. Code generation resolves tokens where they are used and, for the closure of a
nested lambda, where the lambda stands. What a unit does not declare it has captured, unless the token is used by a
lambda that two paths lead to: the analysis takes over such a lambda's tokens on the first path only. Leaving these
aside, a token is only ever reported by the root unit, and then nothing around one of its uses declares it.
-/
import ExprCompiler.Proofs.Compile.Captures
import ExprCompiler.Proofs.Compile.Tokens

namespace ExprCompiler

/-- The refusal of a token with the given name. -/
def Refusal.IsCaptureOf (name : String) (r : Refusal) : Prop :=
  r = .declined (.invalidCapture name)

theorem Refusal.ofLookups_isCaptureOf (name : String) : OfLookups (IsCaptureOf name) :=
  ⟨fun _ h => (by cases h), fun _ _ h => (by cases h)⟩

/-! ## Code generation -/

/-- A token is a local variable, a parameter or a closure item of the unit. -/
def EmitContext.Resolves (ctx : EmitContext) (p : Param) : Prop :=
  (EmitM.localOf? ctx.scopes p).isSome ∨ p ∈ ctx.params ∨ p ∈ ctx.capture.params ∧ ctx.layout.isSome

theorem EmitContext.Resolves.enter {ctx ctx' : EmitContext} {vars : List Param} {p : Param} (he : ctx.Enters vars ctx')
    (h : p ∈ vars ∨ ctx.Resolves p) : ctx'.Resolves p := by
  rcases h with h | h | h | ⟨h, hl⟩
  · exact .inl ((he.declares p).2 (.inl h))
  · exact .inl ((he.declares p).2 (.inr h))
  · exact .inr (.inl (he.params ▸ h))
  · exact .inr (.inr ⟨he.capture ▸ h, he.layout ▸ hl⟩)

/-- The tokens of a name that are free in a tree resolve, and a lambda of the tree has captured, of that name, only
tokens that are free in it. -/
structure EmitContext.Declares (name : String) (ctx : EmitContext) (t : Tree) : Prop where
  tokens : ∀ p ∈ t.free, p.name = name → ctx.Resolves p
  nested : ∀ n ∈ ctx.capture.nested, ∀ l ∈ t.lambdas, n.node = l.id → ∀ child ∈ n.capture, ∀ p ∈ child.params,
    p.name = name → p ∈ l.free

namespace Emit

open EmitM Refusal

variable {name : String} {ctx : EmitContext}

theorem avoids_resolve_token {p : Param} (h : p.name = name → ctx.Resolves p) :
    Avoids (IsCaptureOf name) ctx (resolve p) := by
  refine .read ?_
  split
  · exact .of_pure _
  · rename_i hlocal
    split
    · exact .of_pure _
    · rename_i hparam
      split
      · exact .bind (.check fun d _ h => by cases h) fun _ => .of_pure _
      · rename_i hitem
        refine .throw fun hname => ?_
        have hname : p.name = name := by
          cases hname
          rfl
        rcases h hname with h | h | ⟨h, hl⟩
        · simp [hlocal] at h
        · exact (by simpa using hparam : ∀ q ∈ ctx.params, ¬ q = p) p h rfl
        · obtain ⟨l, hl⟩ := Option.isSome_iff_exists.1 hl
          have hfound : (ctx.capture.paramIndex? p).isSome := by
            simp only [Capture.paramIndex?, List.findIdx?_isSome, List.any_eq_true]
            exact ⟨p, h, by simp⟩
          obtain ⟨i, hi⟩ := Option.isSome_iff_exists.1 hfound
          exact hitem i l hi hl

/-- Closure items are found or else are a defect. -/
theorem avoids_item {α : Type} {f : Layout → EmitM α} (hf : ∀ l ∈ ctx.layout, Avoids (IsCaptureOf name) ctx (f l)) :
    Avoids (IsCaptureOf name) ctx (layout >>= f) := by
  by_cases hl : ctx.layout.isSome
  · exact avoids_layout hl hf
  · refine Avoids.bind_given (.read ?_) fun l hrun => ?_
    · split
      · exact .of_pure _
      · exact .throw fun h => by cases h
    · obtain ⟨b, b', hrun⟩ := hrun
      rw [EmitM.layout, bind_apply, read_apply] at hrun
      simp only [Option.not_isSome_iff_eq_none.1 hl] at hrun
      cases hrun

/-- What is loaded from the closure is there, or else that is a defect. -/
theorem avoids_slot_item (i? : Option Nat) (kind : ItemKind) {f : Nat → Nat → EmitM Unit}
    (hf : ctx.layout.isSome → ∀ i slot, i? = some i → Avoids (IsCaptureOf name) ctx (f i slot)) :
    Avoids (IsCaptureOf name) ctx (do
      let i ← found i?
      let slot ← check ((← layout).slot kind i)
      f i slot) := by
  cases i? with
  | none => exact fun _ _ h => by cases h; exact fun h => by cases h
  | some i =>
    refine .bind_ok (fun _ => rfl) (avoids_item fun l hl => ?_)
    exact .bind (.check fun d _ h => by cases h) fun slot => hf (by rw [hl]; rfl) i slot rfl

theorem avoids_constant_item (id : NodeId) {v : Value} (himm : v.isImmediate = false) :
    Avoids (IsCaptureOf name) ctx (constant id v) := by
  unfold constant
  rw [himm]
  exact .read (avoids_slot_item _ _ fun hl _ slot _ => .read (avoids_loadItem (ofLookups_isCaptureOf name) hl slot _))

/-- The tokens that a nested lambda has captured resolve where the lambda stands. -/
theorem avoids_lambda_tokens {id : NodeId} (h : ∀ n ∈ ctx.capture.nested, n.node = id → ∀ child ∈ n.capture,
    ∀ p ∈ child.params, p.name = name → ctx.Resolves p) : Avoids (IsCaptureOf name) ctx (lambda id) := by
  have hbad := ofLookups_isCaptureOf name
  have hitem : ∀ (i? : Option Nat) (kind : ItemKind) (ty : Ty), Avoids (IsCaptureOf name) ctx (do
      let i ← found i?
      loadItem (← check ((← layout).slot kind i)) ty) :=
    fun i? kind ty => avoids_slot_item i? kind fun hl _ slot _ => avoids_loadItem hbad hl slot ty
  refine .read (avoids_slot_item _ _ fun hl i slot hi => .read ?_)
  split
  · exact .throw fun h => by cases h
  · rename_i n hn
    have hnode : n.node = id := by
      obtain ⟨hlt, hnode, -⟩ := List.findIdx?_eq_some_iff_getElem.1 hi
      rw [List.getElem?_eq_getElem hlt] at hn
      cases hn
      simpa using hnode
    refine (avoids_loadItem hbad hl slot _).bind fun _ => ?_
    split
    · exact .of_pure ()
    · rename_i child _ _ hc _
      refine .bind (.forM _ fun r _ => .read (hitem _ _ _)) fun _ => .bind (.forM _ fun p hp => ?_) fun _ =>
        .bind (.forM _ fun m _ => .read (hitem _ _ _)) fun _ => .bind (hbad.emit _) fun _ => hbad.emit _
      exact avoids_loadVar hbad (avoids_resolve_token (h n (List.mem_of_getElem? hn) hnode child hc p hp)) _
    · exact .throw fun h => by cases h

theorem guards_declares (name : String) : Guards (IsCaptureOf name) (EmitContext.Declares name) where
  constant := fun _ himm => avoids_constant_item _ himm
  nested := fun {_ id ty params body fn} h => avoids_lambda_tokens fun n hn hnode child hc p hp hname => by
    have hself : Tree.node id ty (.lambda params body fn) ∈ (Tree.node id ty (.lambda params body fn)).lambdas := by
      rw [Tree.lambdas_lambda]
      exact List.mem_cons_self
    exact h.tokens p (h.nested n hn _ hself hnode child hc p hp hname) hname
  token := fun h => avoids_resolve_token (h.tokens _ (by simp [Tree.free_node, Shape.tokens]))
  inside := fun {ctx ctx' id ty s c} h hs hc he => by
    refine ⟨fun p hp hname => .enter he ?_, fun n hn l hl => h.nested n (he.capture ▸ hn) l ?_⟩
    · by_cases hin : p ∈ c.1
      · exact .inl hin
      · refine .inr (h.tokens p ?_ hname)
        rw [Tree.free_node]
        exact List.mem_append_right _ (List.mem_flatMap.2 ⟨c, hc, List.mem_filter.2 ⟨hp, by simpa using hin⟩⟩)
    · exact (Tree.lambdas_child (Shape.mem_children_of_enclosed hc)).subset hl

end Emit

/-! ## Analysis -/

theorem Tree.occurs_of_mem_lambdas {t l : Tree} (h : l ∈ t.lambdas) : l.Occurs t := by
  induction t using Tree.induct with
  | node id ty s ih =>
    by_cases hs : ∃ params body name, s = .lambda params body name
    · obtain ⟨params, body, name, rfl⟩ := hs
      rw [lambdas_lambda] at h
      rcases List.mem_cons.1 h with rfl | h
      · exact .here
      · exact .inside (List.mem_singleton_self body) (ih body (List.mem_singleton_self body) h)
    · rw [lambdas_node id ty s fun params body name hl => hs ⟨params, body, name, hl⟩] at h
      obtain ⟨c, hc, h⟩ := List.mem_flatMap.1 h
      exact .inside hc (ih c hc h)

/-- Nodes are shared, but no lambda in which a token of the given name is free stands on two paths. -/
structure Tree.Separates (name : String) (t : Tree) : Prop where
  shares : t.SharesNodes
  apart : t.lambdas.Pairwise fun a b => a.id = b.id → ∀ p ∈ a.free, p.name ≠ name

theorem Tree.Separates.child {name : String} {id : NodeId} {ty : Ty} {s : Shape Tree} {t : Tree}
    (h : (Tree.node id ty s).Separates name) (ht : t ∈ s.children) : t.Separates name :=
  ⟨fun a b ha hb => h.shares a b (.inside ht ha) (.inside ht hb), h.apart.sublist (lambdas_child ht)⟩

theorem Tree.Separates.fresh {name : String} {t : Tree} (h : t.Separates name) :
    Analyze.Fresh (fun p => p.name == name) t.lambdas {} := by
  refine ⟨h.apart.imp_of_mem fun {a b} ha hb hname heq => ?_, by simp [Capture.nestedNodes]⟩
  obtain rfl := h.shares a b (Tree.occurs_of_mem_lambdas ha) (Tree.occurs_of_mem_lambdas hb) heq
  have hclosed : ¬ a.Open fun p => p.name == name := by
    rintro ⟨p, hp, hK⟩
    exact hname heq p hp (by simpa using hK)
  exact ⟨hclosed, hclosed⟩

namespace Analyze

open CompileM Refusal

variable {c : Compiler} {name : String}

/-- The tokens of a name that captures hold, and those of the lambdas that they list, are free ones. -/
theorem Found.tokens {body : Tree} {params : List Param} {capture : Capture} {s' : Session}
    (h : Found c body params capture s') (hsep : body.Separates name) :
    (∀ p, p.name = name → (p ∈ capture.params ↔ p ∈ body.freeTokens params)) ∧
      ∀ n ∈ capture.nested, ∃ l ∈ body.lambdas, n.IsOf (fun p => p.name == name) l := by
  obtain ⟨s, h⟩ := h
  obtain ⟨hparams, hnested⟩ := ((meets_analysis body ⟨params, []⟩ {} s hsep.fresh).result h).2
  refine ⟨fun p hname => ?_, fun n hn => (hnested n hn).resolve_left (by simp)⟩
  rw [List.filter_nil, Capture.foldl_meet_nil] at hparams
  have hmem := congrArg (p ∈ ·) hparams
  simpa [List.mem_eraseDups, Tree.freeTokens_eq, Scope.declares, hname] using hmem

/-- With what its analysis has found, the tokens of a unit's body resolve. -/
theorem Found.declares {body : Tree} {params : List Param} {capture : Capture} {s' : Session}
    (h : Found c body params capture s') (hsep : body.Separates name) :
    EmitContext.Declares name
      ⟨c.operators, params, capture, capture.layout? c.settings.fixedFieldLimit, [], []⟩ body := by
  obtain ⟨hparams, hnested⟩ := h.tokens hsep
  refine ⟨fun p hp hname => ?_, fun n hn l hl hnode child hc p hp hname => ?_⟩
  · by_cases hin : p ∈ params
    · exact .inr (.inl hin)
    · have hmem := (hparams p hname).2 (by simp [Tree.freeTokens_eq, hp, hin])
      refine .inr (.inr ⟨hmem, ?_⟩)
      have hne : capture.isEmpty = false := by
        have := List.length_pos_of_mem hmem
        simp only [Capture.isEmpty, Capture.size, beq_eq_false_iff_ne]
        omega
      simp [Capture.layout?, hne]
  · obtain ⟨l', hl', hof⟩ := hnested n hn
    obtain rfl := hsep.shares l l' (Tree.occurs_of_mem_lambdas hl) (Tree.occurs_of_mem_lambdas hl')
      (hnode.symm.trans hof.node)
    exact hof.params child hc p hp (by simpa using hname)

theorem Found.links {body : Tree} {params : List Param} {capture : Capture} {s' : Session}
    (h : Found c body params capture s') (hsep : body.Separates name) {label : String} {ret : Ty} :
    (avoiding (ofLookups_isCaptureOf name)).Links c label body params ret capture :=
  links_avoiding _ fun _ hr => (Emit.guards_declares name).unit (ofLookups_isCaptureOf name) (h.declares hsep) hr

/-- The analysis never ends in the refusal of a token of the given name. -/
def Resolved (c : Compiler) (name : String) (x : AnalyzeM Unit) : Prop :=
  ∀ scope capture s, (avoiding (ofLookups_isCaptureOf name)).Kept c s (x scope capture) fun _ _ => True

theorem Resolved.found {body : Tree} (h : Resolved c name body.analysis) (params : List Param) (s : Session) :
    (avoiding (ofLookups_isCaptureOf name)).Kept c s (body.analysis ⟨params, []⟩ {}) fun r s' => Found c body
      params r.2 s' :=
  ((h ⟨params, []⟩ {} s).given fun _ _ h => ⟨s, h⟩).mono fun _ _ _ h => h.2

/-- The unit of a nested lambda resolves its tokens, having captured those that it does not declare. -/
theorem walks_resolved : Walks (fun id => id) (fun t => t.Separates name) fun _ x _ => Resolved c name x where
  nil _ _ _ := .of_pure trivial
  append hx hy scope capture s := (hx scope capture s).bind fun r s' _ _ => hy scope r.2 s'
  within _ _ _ _ hx _ capture s := hx _ capture s
  decline _ _ _ _ _ _ _ := .decline _
  child h ht := h.child ht
  constant _ scope capture s := by
    rw [constant_apply]
    exact .of_pure trivial
  parameter _ scope capture s := by
    rw [addParam_apply]
    exact .of_pure trivial
  lambda {id ty params body label} h hx scope capture s := by
    have hsep := h.child (List.mem_singleton_self body)
    rw [lambda_apply]
    split
    · exact .of_pure trivial
    · exact (kept_compileNested (fun s₁ _ => Resolved.found hx params s₁) fun _ _ _ hfound => hfound.links hsep).bind
        fun _ _ _ _ => .of_pure trivial
  inner _ _ hx := hx

end Analyze

/-! ## Compilation -/

namespace CompileM

open Refusal

variable {c : Compiler} {name : String}

/-- If no token of the given name is free, none is refused. -/
theorem avoids_root {body : Tree} {params : List Param} (hsep : body.Separates name)
    (hfree : ∀ p ∈ body.freeTokens params, p.name ≠ name) (label : String) (requested : Requested) :
    Avoids (IsCaptureOf name) c (root label body params requested) fun _ => True := by
  have hresolved : Analyze.Resolved c name body.analysis := Analyze.walks_resolved.analysis hsep
  refine Promise.Kept.avoids fun s => .mono
    (kept_root (fun s₁ _ => hresolved.found params s₁) ?_ (fun _ _ _ hfound => hfound.links hsep) ?_)
      fun _ _ _ _ => trivial
  · rintro capture s₁ p hfound hp ⟨⟩
    exact hfree p (((hfound.tokens hsep).1 p rfl).1 hp) rfl
  · rintro capture s₁ d - - ⟨⟩

/-- Where no lambda with a free token of the reported name stands on two paths, a token of that name is used where
neither the parameters nor a block, a catch clause or a lambda around the use declares it. -/
theorem compile_reports_free_token {body : Tree} {params : List Param} {requested : Requested} {s s' : Session}
    (hsep : body.Separates name)
    (h : compile body params requested c s = (.error (.declined (.invalidCapture name)), s')) :
    ∃ u ∈ body.uses params, u.token.name = name ∧ u.Free := by
  by_contra hnone
  push Not at hnone
  have hfree : ∀ p ∈ body.freeTokens params, p.name ≠ name := by
    intro p hp hname
    obtain ⟨u, hu, rfl⟩ := List.mem_map.1 hp
    obtain ⟨hu, hfree⟩ := List.mem_filter.1 hu
    exact hnone u hu hname (by simpa using hfree)
  have hroot := avoids_root (c := c) hsep hfree "root" requested s
  have h : root "root" body params requested c s = (.error (.declined (.invalidCapture name)), s') := h
  rw [h] at hroot
  exact hroot rfl

/-- Calls one lambda that is closed at two places and, in between, one that uses a token nothing declares. -/
def strayToken : Tree :=
  let i32 : Ty := .int .i32
  let thunk : Ty := Signature.toTy ⟨[], i32⟩
  let closed : Tree := .node 1 thunk (.lambda [] (.node 0 i32 (.constant (.int (.ofInt .i32 1)))) none)
  let stray : Tree := .node 3 thunk (.lambda [] (.node 2 i32 (.parameter ⟨0, "q", i32⟩)) none)
  .node 7 i32 (.block [] [.node 4 i32 (.invoke closed []), .node 5 i32 (.invoke stray []),
    .node 6 i32 (.invoke closed [])])

/-- A compilation ends with a report. -/
def reports (d : Decline) (r : Except Refusal Artifact × Session) : Bool :=
  match r.1 with
  | .error (.declined d') => d' == d
  | _ => false

theorem eq_of_reports {d : Decline} {r : Except Refusal Artifact × Session} (h : reports d r = true) :
    ∃ s, r = (.error (.declined d), s) := by
  rcases r with ⟨(d' | d') | a, s⟩
  · obtain rfl := beq_iff_eq.1 h
    exact ⟨s, rfl⟩
  · cases h
  · cases h

theorem compile_reports_free_token_strayToken :
    strayToken.Separates "q" ∧
      ∃ s', compile strayToken [] none ⟨{}, []⟩ {} = (.error (.declined (.invalidCapture "q")), s') ∧
        ∃ u ∈ strayToken.uses [], u.token.name = "q" ∧ u.Free := by
  have hshares : strayToken.SharesNodes := by
    refine Tree.sharesNodes_of_named ?_
    simp only [strayToken, Tree.all_node, Shape.children, List.forall_mem_cons, List.not_mem_nil, IsEmpty.forall_iff,
      implies_true, and_true]
    and_intros <;> rfl
  have hsep : strayToken.Separates "q" := ⟨hshares, by decide +kernel⟩
  have hrun : reports (.invalidCapture "q") (compile strayToken [] none ⟨{}, []⟩ {}) = true := by decide +kernel
  obtain ⟨s', hx⟩ := eq_of_reports hrun
  exact ⟨hsep, s', hx, compile_reports_free_token hsep hx⟩

/-- A lambda that calls another one twice: in a block that declares the token of the inner lambda, and after the block.
-/
def twiceEnclosed : Tree :=
  let i32 : Ty := .int .i32
  let thunk : Ty := Signature.toTy ⟨[], i32⟩
  let p : Param := ⟨0, "p", i32⟩
  let inner : Tree := .node 1 thunk (.lambda [] (.node 0 i32 (.parameter p)) none)
  .node 7 i32 (.invoke (.node 6 thunk (.lambda []
    (.node 5 i32 (.block [] [.node 3 i32 (.block [p] [.node 2 i32 (.invoke inner [])]),
      .node 4 i32 (.invoke inner [])]))
    none)) [])

/-- With the token as a parameter of the whole tree, each of its uses is declared, yet it is reported: the analysis of
the outer lambda has met the inner one in the block only. -/
theorem compile_reports_declared_token :
    (∀ u ∈ twiceEnclosed.uses [⟨0, "p", .int .i32⟩], ¬ u.Free) ∧
      ∃ s', compile twiceEnclosed [⟨0, "p", .int .i32⟩] none ⟨{}, []⟩ {} =
        (.error (.declined (.invalidCapture "p")), s') := by
  have hrun : reports (.invalidCapture "p") (compile twiceEnclosed [⟨0, "p", .int .i32⟩] none ⟨{}, []⟩ {}) = true := by
    decide +kernel
  exact ⟨by decide +kernel, eq_of_reports hrun⟩

end CompileM

end ExprCompiler
