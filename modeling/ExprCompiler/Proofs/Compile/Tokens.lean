/-
What a unit captures are its free tokens. A parameter is added to the captures where it is used outside of all
that the unit declares, and again where a nested lambda has captured it; either way each token is added at its
first use only. A lambda that two paths lead to is analysed once, for what is declared around it on the first path,
so this holds of the tokens that no such lambda leaves free.
-/
import ExprCompiler.Proofs.Compile.Outline

namespace ExprCompiler

/-! ## Tokens in the order of their first use -/

namespace Capture

/-- Adds a token that is not there. -/
def meet (ps : List Param) (p : Param) : List Param :=
  if p ∈ ps then ps else ps ++ [p]

theorem eraseDups_filter (f : Param → Bool) (ps : List Param) : (ps.filter f).eraseDups = ps.eraseDups.filter f := by
  induction hn : ps.length using Nat.strong_induction_on generalizing ps with
  | _ n ih =>
    cases ps with
    | nil => simp
    | cons p ps =>
      have hlt : (ps.filter fun q => !q == p).length < n := by
        have := List.length_filter_le (fun q => !q == p) ps
        simp only [List.length_cons] at hn
        omega
      have hin := ih _ hlt _ rfl
      rw [List.eraseDups_cons]
      by_cases hp : f p
      · rw [List.filter_cons_of_pos hp, List.eraseDups_cons, List.filter_cons_of_pos hp, ← hin, List.filter_comm]
      · have hnot : ∀ q ∈ ps.filter f, (!q == p) = true := by
          intro q hq
          have hq := (List.mem_filter.1 hq).2
          simp only [Bool.not_eq_true', beq_eq_false_iff_ne, ne_eq]
          rintro rfl
          exact hp hq
        rw [List.filter_cons_of_neg hp, List.filter_cons_of_neg hp, ← hin, List.filter_comm,
          List.filter_eq_self.2 hnot]

/-- Adding tokens one by one leaves them in the order of their first use, behind those that were there. -/
theorem foldl_meet (ps qs : List Param) : qs.foldl meet ps = ps ++ (qs.filter fun q => q ∉ ps).eraseDups := by
  induction qs generalizing ps with
  | nil => simp
  | cons q qs ih =>
    rw [List.foldl_cons, ih, meet]
    by_cases hq : q ∈ ps
    · rw [if_pos hq, List.filter_cons_of_neg (by simpa using hq)]
    · rw [if_neg hq, List.filter_cons_of_pos (by simpa using hq), List.eraseDups_cons, List.filter_filter,
        List.append_assoc, List.singleton_append]
      congr 3
      refine List.filter_congr fun r _ => ?_
      simp only [List.mem_append, List.mem_singleton]
      grind

theorem foldl_meet_nil (qs : List Param) : qs.foldl meet [] = qs.eraseDups := by
  simp [foldl_meet]

theorem filter_foldl_meet (K : Param → Bool) (ps qs : List Param) :
    (qs.foldl meet ps).filter K = (qs.filter K).foldl meet (ps.filter K) := by
  rw [foldl_meet, foldl_meet, List.filter_append, ← eraseDups_filter, List.filter_comm]
  congr 2
  refine List.filter_congr fun q hq => ?_
  have hq := (List.mem_filter.1 hq).2
  simp [List.mem_filter, hq]

theorem nodup_foldl_meet {ps : List Param} (h : ps.Nodup) (qs : List Param) : (qs.foldl meet ps).Nodup := by
  induction qs generalizing ps with
  | nil => exact h
  | cons q qs ih =>
    refine ih ?_
    unfold meet
    split
    · exact h
    · rename_i hq
      exact List.Nodup.append h (List.nodup_singleton q) (by simpa using hq)

theorem eraseDups_of_nodup {ps : List Param} (h : ps.Nodup) : ps.eraseDups = ps := by
  induction ps with
  | nil => rfl
  | cons p ps ih =>
    obtain ⟨hp, hps⟩ := List.nodup_cons.1 h
    have hall : ∀ q ∈ ps, (!q == p) = true := by
      intro q hq
      simp only [Bool.not_eq_true', beq_eq_false_iff_ne, ne_eq]
      rintro rfl
      exact hp hq
    rw [List.eraseDups_cons, List.filter_eq_self.2 hall, ih hps]

/-- Tokens that were gathered elsewhere count as if they were met here. -/
theorem foldl_meet_gathered (f : Param → Bool) (ps qs : List Param) :
    ((qs.foldl meet []).filter f).foldl meet ps = (qs.filter f).foldl meet ps := by
  have hsame : (qs.foldl meet []).eraseDups = qs.eraseDups := by
    rw [eraseDups_of_nodup (nodup_foldl_meet List.nodup_nil qs), foldl_meet_nil]
  rw [foldl_meet ps, foldl_meet ps, eraseDups_filter, eraseDups_filter, eraseDups_filter, eraseDups_filter, hsame]

/-! ## Parameters of captures -/

variable {declared : Param → Bool} {c : Capture}

theorem eq_empty (h : c.isEmpty = true) : c = {} := by
  simp only [isEmpty, size, beq_iff_eq, Nat.add_eq_zero_iff, List.length_eq_zero_iff] at h
  exact ext_iff'.2 ⟨h.1.1, h.1.2, h.2⟩

theorem addParam_params (c : Capture) (p : Param) : (c.addParam p).2.params = meet c.params p := by
  have hfound : (c.paramIndex? p).isSome = true ↔ p ∈ c.params := by
    simp [paramIndex?, List.findIdx?_isSome]
  unfold addParam meet
  split
  · rw [if_pos (hfound.1 ‹_›)]
  · rw [if_neg fun h => ‹¬ _› (hfound.2 h)]

theorem params_capturing (declared : Param → Bool) (c : Capture) (ps : List Param) :
    (ps.foldl (capturing declared) c).params = (ps.filter fun p => !declared p).foldl meet c.params := by
  induction ps generalizing c with
  | nil => rfl
  | cons p ps ih =>
    rw [List.foldl_cons, ih, capturing]
    by_cases hp : declared p
    · rw [if_pos hp, List.filter_cons_of_neg (by simp [hp])]
    · rw [if_neg hp, List.filter_cons_of_pos (by simp [hp]), List.foldl_cons, addParam_params]

@[simp] theorem addConstant_params (c : Capture) (r : CapturedConstant) : (c.addConstant r).2.params = c.params := by
  rw [addConstant]
  split <;> rfl

@[simp] theorem addNested_params (c : Capture) (n : Nested) : (c.addNested n).2.params = c.params := by
  rw [addNested]
  split <;> rfl

/-- What is taken over of a lambda's parameters are those that the unit does not declare. -/
theorem params_absorb (n : Nested) : (c.absorb declared n).params =
    ((n.capture.getD {}).params.filter fun p => !declared p).foldl meet c.params := by
  have hconstants : ∀ (rs : List CapturedConstant) (c : Capture),
      (rs.foldl (fun c r => (c.addConstant r).2) c).params = c.params := by
    intro rs
    induction rs with
    | nil => exact fun _ => rfl
    | cons r rs ih => exact fun c => (ih _).trans (c.addConstant_params r)
  have hnested : ∀ (ns : List Nested) (c : Capture), (ns.foldl (fun c n => (c.addNested n).2) c).params = c.params := by
    intro ns
    induction ns with
    | nil => exact fun _ => rfl
    | cons n ns ih => exact fun c => (ih _).trans (c.addNested_params n)
  simp only [absorb]
  rw [addNested_params, hnested, hconstants, params_capturing]

end Capture

/-! ## The analysis of a unit -/

/-- The lambda leaves a token of the given kind free. -/
def Tree.Open (K : Param → Bool) (l : Tree) : Prop :=
  ∃ p ∈ l.free, K p = true

/-- A record of a lambda: its captured parameters, of the given kind, are free in the lambda. -/
structure NestedOf.IsOf (K : Param → Bool) (l : Tree) (n : Nested) : Prop where
  node : n.node = l.id
  params : ∀ child ∈ n.capture, ∀ p ∈ child.params, K p = true → p ∈ l.free

namespace Analyze

open CompileM

variable {c : Compiler} {K : Param → Bool}

/-- Of the lambdas that are to be analysed, none that leaves a token of the given kind free was analysed before, nor
stands there twice. -/
structure Fresh (K : Param → Bool) (ls : List Tree) (capture : Capture) : Prop where
  apart : ls.Pairwise fun a b => a.id = b.id → ¬ a.Open K ∧ ¬ b.Open K
  new : ∀ l ∈ ls, l.Open K → l.id ∉ capture.nestedNodes

/-- An analysis that succeeds adds, of the given kind, those of the given tokens that the unit does not declare, and
records of given lambdas. -/
def Meets (c : Compiler) (K : Param → Bool) (x : AnalyzeM Unit) (ps : List Param) (ls : List Tree) : Prop :=
  ∀ scope capture s, Fresh K ls capture → Promise.nothing.Kept c s (x scope capture) fun r _ =>
    r.2.params.filter K = ((ps.filter fun p => !scope.declares p).filter K).foldl Capture.meet
      (capture.params.filter K) ∧ ∀ n ∈ r.2.nested, n ∈ capture.nested ∨ ∃ l ∈ ls, n.IsOf K l

theorem Fresh.rest {ls ms : List Tree} {capture capture' : Capture} (h : Fresh K (ls ++ ms) capture)
    (hnested : ∀ n ∈ capture'.nested, n ∈ capture.nested ∨ ∃ l ∈ ls, n.IsOf K l) : Fresh K ms capture' := by
  obtain ⟨-, hms, hapart⟩ := List.pairwise_append.1 h.apart
  refine ⟨hms, fun m hm hopen hmem => ?_⟩
  obtain ⟨n, hn, hnode⟩ := List.mem_map.1 hmem
  rcases hnested n hn with hn | ⟨l, hl, hof⟩
  · exact h.new m (List.mem_append_right ls hm) hopen (hnode ▸ List.mem_map_of_mem hn)
  · exact (hapart l hl m hm (hof.node.symm.trans hnode)).2 hopen

theorem Meets.bind {x y : AnalyzeM Unit} {ps qs : List Param} {ls ms : List Tree} (hx : Meets c K x ps ls)
    (hy : Meets c K y qs ms) : Meets c K (x >>= fun _ => y) (ps ++ qs) (ls ++ ms) := by
  intro scope capture s h
  have hls : Fresh K ls capture :=
    ⟨(List.pairwise_append.1 h.apart).1, fun l hl => h.new l (List.mem_append_left ms hl)⟩
  refine (hx scope capture s hls).bind fun r s₁ _ hr => (hy scope r.2 s₁ (h.rest hr.2)).mono fun r' _ _ hr' => ⟨?_,
    fun n hn => ?_⟩
  · rw [hr'.1, hr.1, List.filter_append, List.filter_append, List.foldl_append]
  · rcases hr'.2 n hn with hn | ⟨m, hm, hof⟩
    · refine (hr.2 n hn).imp_right ?_
      rintro ⟨l, hl, hof⟩
      exact ⟨l, List.mem_append_left ms hl, hof⟩
    · exact .inr ⟨m, List.mem_append_right ls hm, hof⟩

/-- What a lambda that is compiled adds: what it captures is free in it. -/
theorem Recorded.meets {s s' : Session} {id : NodeId} {ty : Ty} {params : List Param} {body : Tree}
    {name : Option String} {n : Nested} (hn : Recorded .nothing c s (fun child _ =>
      child.params.filter K = ((Tree.node id ty (.lambda params body name)).free.filter K).foldl Capture.meet [] ∧
        ∀ m ∈ child.nested, ∃ l ∈ body.lambdas, m.IsOf K l) id ty params body name n s') (declared : Param → Bool)
          (capture : Capture) :
    (capture.absorb declared n).params.filter K = (((Tree.node id ty (.lambda params body name)).free.filter fun p =>
        !declared p).filter K).foldl Capture.meet (capture.params.filter K) ∧
      ∀ m ∈ (capture.absorb declared n).nested, m ∈ capture.nested ∨
        ∃ l ∈ Tree.node id ty (.lambda params body name) :: body.lambdas, m.IsOf K l := by
  cases hn with
  | @record sig child ref s₁ s' _ _ found _ _ _ =>
    obtain ⟨hparams, hnested⟩ := found
    set n : Nested := ⟨id, .ofLayout ref (child.layout? c.settings.fixedFieldLimit),
      if child.isEmpty then none else some child, sig⟩ with hn
    have hchild : n.capture.getD {} = child := by
      rw [hn]
      dsimp only
      split
      · exact (Capture.eq_empty ‹_›).symm
      · rfl
    have hown : n.IsOf K (.node id ty (.lambda params body name)) := by
      refine ⟨rfl, fun child' hc p hp hK => ?_⟩
      obtain rfl : child = child' := by rw [← hchild, hc, Option.getD_some]
      have hmem : p ∈ child.params.filter K := List.mem_filter.2 ⟨hp, hK⟩
      rw [hparams, Capture.foldl_meet_nil, List.mem_eraseDups] at hmem
      exact List.mem_of_mem_filter hmem
    refine ⟨?_, fun m hm => ?_⟩
    · rw [Capture.params_absorb, hchild, Capture.filter_foldl_meet, List.filter_comm, hparams,
        Capture.foldl_meet_gathered, List.filter_comm]
    · rcases (Capture.Grows.absorb declared capture n).nested m hm with hm | hm
      · exact .inl hm
      · rw [hchild] at hm
        rcases List.mem_append.1 hm with hm | hm
        · obtain ⟨l, hl, hof⟩ := hnested m hm
          exact .inr ⟨l, List.mem_cons_of_mem _ hl, hof⟩
        · obtain rfl := List.mem_singleton.1 hm
          exact .inr ⟨_, List.mem_cons_self, hown⟩

/-- A lambda that was analysed before leaves nothing of the given kind free. -/
theorem meets_lambda {id : NodeId} {ty : Ty} {params : List Param} {body : Tree} {name : Option String}
    (hx : Meets c K body.analysis body.free body.lambdas) :
    Meets c K (lambda id ty params (.of Tree.analysis body) name) (Tree.node id ty (.lambda params body name)).free
      (.node id ty (.lambda params body name) :: body.lambdas) := by
  intro scope capture s hfresh
  rw [lambda_apply]
  split
  · rename_i hfound
    have hid : id ∈ capture.nestedNodes := by
      simpa [Capture.nestedIndex?, List.findIdx?_isSome, Capture.nestedNodes] using hfound
    refine .of_pure ⟨?_, fun n hn => .inl hn⟩
    have hnone : ((Tree.node id ty (.lambda params body name)).free.filter fun p => !scope.declares p).filter K =
      [] := by
      refine List.filter_eq_nil_iff.2 fun p hp hK => ?_
      exact hfresh.new _ List.mem_cons_self ⟨p, List.mem_of_mem_filter hp, hK⟩ hid
    rw [hnone]
    rfl
  · have hfreshBody : Fresh K body.lambdas {} := ⟨(List.pairwise_cons.1 hfresh.apart).2, by simp [Capture.nestedNodes]⟩
    have hscope : (body.free.filter fun p => !(⟨params, []⟩ : Scope).declares p) =
        (Tree.node id ty (.lambda params body name)).free := by
      rw [Tree.free_lambda]
      exact List.filter_congr fun p _ => by simp [Scope.declares]
    have hbody := fun s₁ => (hx ⟨params, []⟩ {} s₁ hfreshBody).mono fun r _ _ hr =>
      And.intro (hscope ▸ hr.1) fun m hm => (hr.2 m hm).resolve_left (by simp)
    exact (kept_compileNested (fun s₁ _ => hbody s₁) fun _ _ _ _ => Promise.links_nothing).bind fun n s' _ hn =>
      .of_pure (hn.meets scope.declares capture)

/-- The tokens that are free in trees, each with what is declared around it. -/
def freeAll (es : List (List Param × Tree)) : List Param :=
  es.flatMap fun e => e.2.free.filter fun p => p ∉ e.1

theorem freeAll_single (t : Tree) : freeAll [([], t)] = t.free := by
  simp [freeAll]

theorem freeAll_within (scope : Scope) (vars : List Param) (ts : List Tree) :
    ((freeAll (ts.map fun t => ([], t))).filter fun p => !(⟨scope.params, vars :: scope.scopes⟩ : Scope).declares p) =
      (freeAll (ts.map fun t => (vars, t))).filter fun p => !scope.declares p := by
  rw [freeAll, freeAll, List.flatMap_map, List.flatMap_map, List.filter_flatMap, List.filter_flatMap]
  congr 1
  funext t
  rw [List.filter_filter, List.filter_filter]
  refine List.filter_congr fun p _ => ?_
  simp only [Scope.declares, List.any_cons]
  grind

theorem walks_meets : Walks (fun id => id) (fun _ => True) fun es x _ =>
    Meets c K x (freeAll es) (es.flatMap fun e => e.2.lambdas) where
  nil _ _ _ _ := .of_pure ⟨rfl, fun _ hn => .inl hn⟩
  append hx hy := by
    rw [freeAll, List.flatMap_append, List.flatMap_append]
    exact hx.bind hy
  within vars ts _ _ hx scope capture s hfresh := by
    rw [List.flatMap_map] at hfresh hx ⊢
    rw [← freeAll_within]
    exact hx _ capture s hfresh
  decline _ _ _ _ _ _ _ _ := .decline _
  child _ _ := trivial
  constant {id ty v} _ scope capture s _ := by
    have hfree : (Tree.node id ty (.constant v)).free = [] := by
      simp [Tree.free_node, Shape.tokens, Shape.enclosed, Shape.children]
    rw [constant_apply, freeAll_single, hfree]
    refine .of_pure ?_
    dsimp only
    split
    · exact ⟨rfl, fun n hn => .inl hn⟩
    · refine ⟨congrArg (List.filter K) (capture.addConstant_params _), fun n hn => ?_⟩
      exact ((Capture.Grows.addConstant capture _).nested n hn).imp_right fun h => by cases h
  parameter {id ty p} _ scope capture s _ := by
    have hfree : (Tree.node id ty (.parameter p)).free = [p] := by
      simp [Tree.free_node, Shape.tokens, Shape.enclosed, Shape.children]
    have hparams := Capture.params_capturing scope.declares capture [p]
    rw [List.foldl_cons, List.foldl_nil] at hparams
    rw [addParam_apply, freeAll_single, hfree]
    refine .of_pure ⟨?_, fun n hn => ?_⟩
    · rw [hparams, Capture.filter_foldl_meet]
    · exact ((Capture.Grows.capturing scope.declares capture p).nested n hn).imp_right fun h => by cases h
  lambda {id ty params body name} _ hx := by
    rw [freeAll_single, List.flatMap_singleton] at hx ⊢
    rw [Tree.lambdas_lambda]
    exact meets_lambda hx
  inner {id ty s x x'} _ hs hx := by
    have htokens : s.tokens = [] := by
      cases s with
      | parameter p => exact absurd rfl (hs.2.1 p)
      | _ => rfl
    have henclosed : (s.enclosed.flatMap fun e => e.2.lambdas) = s.children.flatMap Tree.lambdas := by
      rw [← Shape.enclosed_snd, List.flatMap_map]
    rw [freeAll_single, List.flatMap_singleton, Tree.lambdas_node _ _ _ hs.2.2, Tree.free_node, htokens, ← henclosed]
    exact hx

/-- The walk over a tree meets the tokens that are free in the tree. -/
theorem meets_analysis (t : Tree) : Meets c K t.analysis t.free t.lambdas := by
  simpa [freeAll_single] using walks_meets.analysis (t := t) trivial

end Analyze

namespace CompileM

variable {c : Compiler} {s s' : Session}

/-- Where no lambda is reached along two paths, the parameters that an analysis finds are exactly the tokens with a
free use, each once and in the order of their first such use. -/
theorem analyze_params_eq_freeTokens {body : Tree} {params : List Param} {info : Capture}
    (hlambdas : (body.lambdas.map Tree.id).Nodup) (h : analyze body params c s = (.ok info, s')) :
    info.params = (body.freeTokens params).eraseDups ∧ info.params.Nodup := by
  obtain ⟨⟨⟨⟩, capture⟩, s₁, hrun, hpure⟩ := bind_eq_ok h
  cases hpure
  have hfresh : Analyze.Fresh (fun _ => true) body.lambdas {} := by
    refine ⟨(List.pairwise_map.1 hlambdas).imp fun hne heq => absurd heq hne, fun l _ _ hl => ?_⟩
    cases hl
  have hmeets := ((Analyze.meets_analysis body ⟨params, []⟩ {} s hfresh).result hrun).2.1
  have hscope : (body.free.filter fun p => !(⟨params, []⟩ : Scope).declares p) = body.freeTokens params := by
    rw [Tree.freeTokens_eq]
    exact List.filter_congr fun p _ => by simp [Scope.declares]
  rw [List.filter_true, List.filter_true, List.filter_true, hscope] at hmeets
  rw [hmeets]
  exact ⟨Capture.foldl_meet_nil _, Capture.nodup_foldl_meet List.nodup_nil _⟩

/-- A block with a variable `v`, in which lambdas in each other and a catch clause use tokens that are declared at some
of their uses only; the use of `x` is one node that two parents share. -/
def shadowing : Tree :=
  let i32 : Ty := .int .i32
  let thunk : Ty := Signature.toTy ⟨[], i32⟩
  let token (serial : Nat) (name : String) : Param := ⟨serial, name, i32⟩
  let use (id : NodeId) (p : Param) : Tree := .node id i32 (.parameter p)
  let v := token 0 "v"
  let x := token 1 "x"
  let y := token 2 "y"
  let z := token 3 "z"
  let sharedX := use 0 x
  let inner : Tree := .node 4 thunk (.lambda []
    (.node 3 i32 (.arith .add (use 1 v) (.node 2 i32 (.arith .add (use 5 y) (use 6 z) false none)) false none)) none)
  let outer : Tree := .node 9 (Signature.toTy ⟨[i32], i32⟩) (.lambda [y]
    (.node 8 i32 (.arith .add sharedX (.node 7 i32 (.invoke inner [])) false none)) none)
  .node 17 i32 (.block [v] [
    .node 11 i32 (.invoke outer [.node 10 i32 (.constant (.int (.ofInt .i32 1)))]),
    .node 14 i32 (.guarded (use 12 v) [⟨.object, some z, none, use 13 z⟩] none),
    .node 16 i32 (.arith .add (use 15 y) sharedX false none)])

theorem analyze_params_eq_freeTokens_shadowing :
    (shadowing.lambdas.map Tree.id).Nodup ∧ ∃ info s', analyze shadowing [] ⟨{}, []⟩ {} = (.ok info, s') ∧
      info.params = (shadowing.freeTokens []).eraseDups ∧ info.params.map Param.name = ["x", "z", "y"] := by
  have hlambdas : (shadowing.lambdas.map Tree.id).Nodup := by decide +kernel
  have hrun : (analyze shadowing [] ⟨{}, []⟩ {}).1.toOption.isSome = true := by decide +kernel
  rcases hx : analyze shadowing [] ⟨{}, []⟩ {} with ⟨e | info, s'⟩ <;> rw [hx] at hrun
  · cases hrun
  · obtain ⟨hparams, -⟩ := analyze_params_eq_freeTokens hlambdas hx
    refine ⟨hlambdas, info, s', rfl, hparams, ?_⟩
    rw [hparams]
    decide +kernel

end CompileM

end ExprCompiler
