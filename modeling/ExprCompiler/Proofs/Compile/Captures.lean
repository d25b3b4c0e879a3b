/-
The analysis records what code generation looks up. Captures come in on two ways: constants and lambdas
that the walk over a body meets, and those that a nested unit has captured, which its parent takes over.
On both ways an item whose node is there already is left out. What carries the proof is that the
captures always list all that lies below the lambdas they list, so that leaving one out loses nothing.
-/
import ExprCompiler.Proofs.Compile.Discipline
import ExprCompiler.Proofs.Emit.Captures

namespace ExprCompiler

/-- Nodes with equal identities are the same node. -/
def Tree.SharesNodes (t : Tree) : Prop :=
  ∀ a b : Tree, a.Occurs t → b.Occurs t → a.id = b.id → a = b

theorem Tree.All.of_occurs {P : NodeId → Ty → Shape Tree → Prop} {n t : Tree} (h : t.All P) (ho : n.Occurs t) :
    P n.id n.ty n.shape := by
  induction ho with
  | here =>
    obtain ⟨id, ty, s⟩ := n
    exact h.root
  | inside child _ ih => exact ih (h.children _ child)

theorem Tree.All.inside {P : NodeId → Ty → Shape Tree → Prop} {n t : Tree} (h : t.All P) (ho : n.Occurs t) :
    n.All P := by
  induction ho with
  | here => exact h
  | inside child _ ih => exact ih (h.children _ child)

/-- The first node with an identity. -/
def Tree.named? (id : NodeId) : Tree → Option Tree :=
  fold fun id' ty s => if id' = id then some (.node id' ty (s.map Child.node)) else s.children.findSome? Child.meaning

/-- Nodes are shared if each is the first one with its identity. -/
theorem Tree.sharesNodes_of_named {t : Tree} (h : t.All fun id ty s => t.named? id = some (.node id ty s)) :
    t.SharesNodes := by
  rintro ⟨id, ty, s⟩ ⟨id', ty', s'⟩ ha hb (rfl : id = id')
  exact Option.some.inj ((h.of_occurs ha).symm.trans (h.of_occurs hb))

/-! ## Captures that grow -/

namespace Capture

variable {c c' : Capture}

theorem Records.mono {t : Tree} (h : c.Records t) (hc : c.Within c') : c'.Records t :=
  ⟨fun id ty v ho himm => hc.constants (h.constants id ty v ho himm),
    fun id ty params body name ho => hc.nested (h.nested id ty params body name ho)⟩

/-- A node is recorded if its children are, and it itself if it is an item of its own. -/
theorem Records.node {id : NodeId} {ty : Ty} {s : Shape Tree} (hs : ∀ t ∈ s.children, c.Records t)
    (hv : ∀ v, s = .constant v → v.isImmediate = false → id ∈ c.constantNodes)
    (hl : ∀ params body name, s = .lambda params body name → id ∈ c.nestedNodes) : c.Records (.node id ty s) := by
  constructor
  · intro id' ty' v ho himm
    rcases Tree.occurs_node.1 ho with h | ⟨t, ht, h⟩
    · cases h
      exact hv v rfl himm
    · exact (hs t ht).constants id' ty' v h himm
  · intro id' ty' params body name ho
    rcases Tree.occurs_node.1 ho with h | ⟨t, ht, h⟩
    · cases h
      exact hl params body name rfl
    · exact (hs t ht).nested id' ty' params body name h

theorem Provides.mono {n : Nested} (h : c.Provides n) (hc : c.Within c') : c'.Provides n :=
  ⟨h.artifact, fun child hchild => List.Subset.trans (h.constants child hchild) hc.constants,
    fun child hchild => List.Subset.trans (h.nested child hchild) hc.nested⟩

/-- Captures of nodes of a tree, each once. All that lies below a lambda they list is listed as well. -/
structure Lists (t : Tree) (c : Capture) : Prop where
  constants : ∀ r ∈ c.constants,
    Tree.Occurs (.node r.node r.ty (.constant r.value)) t ∧ r.value.isImmediate = false
  nested : ∀ n ∈ c.nested,
    ∃ ty params body name, Tree.Occurs (.node n.node ty (.lambda params body name)) t ∧ c.Records body
  provides : ∀ n ∈ c.nested, c.Provides n
  nodup : c.constantNodes.Nodup
  nodup_nested : c.nestedNodes.Nodup

theorem Lists.empty (t : Tree) : ({} : Capture).Lists t :=
  ⟨by simp, by simp, by simp, List.nodup_nil, List.nodup_nil⟩

/-- Captures stay so if they take over constants of the tree, and lambdas together with what is below them. -/
theorem Lists.grow {t : Tree} {cs : List CapturedConstant} {ns : List Nested} (h : c.Lists t) (hg : c.Grows cs ns c')
    (hcs : ∀ r ∈ cs, Tree.Occurs (.node r.node r.ty (.constant r.value)) t ∧ r.value.isImmediate = false)
    (hns : ∀ n ∈ ns, ∃ ty params body name,
      Tree.Occurs (.node n.node ty (.lambda params body name)) t ∧ c'.Records body)
    (hps : ∀ n ∈ ns, c'.Provides n) : c'.Lists t where
  constants r hr := (hg.constants r hr).elim (h.constants r) (hcs r)
  nested n hn := by
    rcases hg.nested n hn with hn | hn
    · obtain ⟨ty, params, body, name, ho, hrec⟩ := h.nested n hn
      exact ⟨ty, params, body, name, ho, hrec.mono hg.within⟩
    · exact hns n hn
  provides n hn := (hg.nested n hn).elim (fun hn => (h.provides n hn).mono hg.within) (hps n)
  nodup := hg.nodup h.nodup
  nodup_nested := hg.nodup_nested h.nodup_nested

end Capture

/-! ## Compilations that are not refused -/

namespace CompileM

open Refusal

variable {α : Type} {c : Compiler} {bad : Refusal → Prop}

/-- The compilation never ends in a refusal of the given kind, and gives a result with `Q` if it gives one. -/
def Avoids (bad : Refusal → Prop) (c : Compiler) (x : CompileM α) (Q : α → Prop) : Prop :=
  ∀ s, match (x c s).1 with
    | .ok a => Q a
    | .error r => ¬ bad r

/-- No refusal of a kind is met. -/
def avoiding (hbad : OfLookups bad) : Promise where
  change _ _ := True
  refusal r := ¬ bad r
  of_units _ := trivial
  trans _ _ := trivial
  unsupported := hbad.unsupported

theorem Promise.Kept.avoids {hbad : OfLookups bad} {x : CompileM α} {Q : α → Prop}
    (h : ∀ s, (avoiding hbad).Kept c s x fun a _ => Q a) : Avoids bad c x Q := by
  intro s
  have hs := (h s).2
  rcases hx : x c s with ⟨r | a, s'⟩ <;> rw [hx] at hs <;> exact hs

theorem links_avoiding (hbad : OfLookups bad) {capture : Capture} {body : Tree} {name : String} {params : List Param}
    {ret : Ty} (h : ∀ r, unitOf c name body params ret capture = .error r → ¬ bad r) :
    (avoiding hbad).Links c name body params ret capture where
  refused := h
  malformed _ _ _ _ _ := hbad.defect _ rfl
  lower u n d _ hd := by
    obtain ⟨length, index, rfl⟩ := CodeUnit.outOfBounds_of_lower hd
    exact hbad.defect _ rfl
  push _ _ _ _ := trivial

end CompileM

/-! ## Analysis -/

namespace Analyze

open CompileM Refusal

variable {c : Compiler} {root : Tree}

/-- The analysis meets no defect of the layout, and records nodes of the root, some given ones included. -/
def Covers (c : Compiler) (root : Tree) (x : AnalyzeM Unit) (ts : List Tree) : Prop :=
  ∀ scope capture s, capture.Lists root → (avoiding ofLookups_isOfLayout).Kept c s (x scope capture) fun r _ =>
    r.2.Lists root ∧ capture.Within r.2 ∧ ∀ t ∈ ts, r.2.Records t

/-- What is known of the captures of a lambda's body. -/
def Recording (root body : Tree) (capture : Capture) : Prop :=
  capture.Lists root ∧ capture.Records body

/-- What is known of the record of a nested lambda with a given body: the captures of its unit, or none if
there are none, record the body. -/
structure Lists (root body : Tree) (n : Nested) : Prop where
  artifact : n.capture.isSome → ∃ unit l, n.artifact = .curryable unit l
  lists : (n.capture.getD {}).Lists root
  records : (n.capture.getD {}).Records body

theorem Recorded.lists {P : Promise} {s s' : Session} {id : NodeId} {ty : Ty} {params : List Param} {body : Tree}
    {name : Option String} {n : Nested}
    (h : Recorded P c s (fun capture _ => Recording root body capture) id ty params body name n s') :
    n.node = id ∧ Lists root body n := by
  cases h with
  | @record sig capture ref s₁ s' _ _ found _ _ _ =>
    refine ⟨rfl, ?_⟩
    by_cases he : capture.isEmpty
    · have hempty : capture.constants = [] ∧ capture.nested = [] := by
        simp only [Capture.isEmpty, Capture.size, beq_iff_eq, Nat.add_eq_zero_iff, List.length_eq_zero_iff] at he
        exact ⟨he.1.1, he.2⟩
      have hwithin : capture.Within {} := by
        constructor <;> simp [Capture.constantNodes, Capture.nestedNodes, hempty]
      simp only [he, if_true]
      exact ⟨by simp, .empty root, found.2.mono hwithin⟩
    · simp only [he, Capture.layout?]
      exact ⟨fun _ => ⟨_, _, rfl⟩, found.1, found.2⟩

/-- A lambda that is left out is listed with all below it; any other is listed with what it captures. -/
theorem covers_lambda (hroot : root.SharesNodes) {id : NodeId} {ty : Ty} {params : List Param} {body : Tree}
    {name : Option String} (ho : Tree.Occurs (.node id ty (.lambda params body name)) root)
    (hx : Covers c root body.analysis [body]) :
    Covers c root (lambda id ty params (.of Tree.analysis body) name)
      [.node id ty (.lambda params body name)] := by
  have hnode : ∀ {capture : Capture}, id ∈ capture.nestedNodes → capture.Records body →
      capture.Records (.node id ty (.lambda params body name)) := by
    intro capture hid hb
    refine .node (fun t ht => ?_) (fun v hv => by cases hv) fun _ _ _ _ => hid
    obtain rfl := List.mem_singleton.1 ht
    exact hb
  intro scope capture s hc
  rw [lambda_apply]
  split
  · rename_i hfound
    refine .of_pure ⟨hc, .refl capture, fun t ht => ?_⟩
    obtain rfl := List.mem_singleton.1 ht
    obtain ⟨n, hn, hid⟩ : ∃ n ∈ capture.nested, n.node = id := by
      simpa [Capture.nestedIndex?, List.findIdx?_isSome] using hfound
    -- the listed lambda with this identity is this one, so its body is recorded
    obtain ⟨ty', params', body', name', ho', hrec⟩ := hc.nested n hn
    have heq := hroot _ _ ho' ho hid
    cases heq
    exact hnode (List.mem_map_of_mem hn) hrec
  · have hbody : ∀ s₁, (avoiding ofLookups_isOfLayout).Kept c s₁ (body.analysis ⟨params, []⟩ {}) fun r _ =>
        Recording root body r.2 := fun s₁ =>
      (hx ⟨params, []⟩ {} s₁ (.empty root)).mono fun r _ _ hr => ⟨hr.1, hr.2.2 body (List.mem_singleton_self body)⟩
    refine (kept_compileNested (Q := fun capture _ => Recording root body capture) (fun s₁ _ => hbody s₁)
      fun ret capture _ hcapture => links_avoiding _ fun r hr =>
        Emit.unit_avoids hcapture.2 hcapture.1.provides hr).bind fun n s' _ hrecorded => .of_pure ?_
    obtain ⟨hid, hn⟩ := hrecorded.lists
    have hg := Capture.Grows.absorb scope.declares capture n
    have hchild : (n.capture.getD {}).Within (capture.absorb scope.declares n) :=
      ⟨fun m hm => by obtain ⟨k, hk, rfl⟩ := List.mem_map.1 hm; exact hg.taken k hk,
        fun m hm => by
          obtain ⟨k, hk, rfl⟩ := List.mem_map.1 hm
          exact hg.taken_nested k (List.mem_append_left _ hk)⟩
    have hown : id ∈ (capture.absorb scope.declares n).nestedNodes := by
      rw [← hid]
      exact hg.taken_nested n (List.mem_append_right _ (List.mem_singleton_self n))
    have hrec : (capture.absorb scope.declares n).Records body := hn.records.mono hchild
    refine ⟨hc.grow hg hn.lists.constants ?_ ?_, hg.within, fun t ht => ?_⟩
    · intro m hm
      rcases List.mem_append.1 hm with hm | hm
      · obtain ⟨ty', params', body', name', ho', hrec⟩ := hn.lists.nested m hm
        exact ⟨ty', params', body', name', ho', hrec.mono hchild⟩
      · obtain rfl := List.mem_singleton.1 hm
        exact ⟨ty, params, body, name, hid ▸ ho, hrec⟩
    · intro m hm
      rcases List.mem_append.1 hm with hm | hm
      · exact (hn.lists.provides m hm).mono hchild
      · obtain rfl := List.mem_singleton.1 hm
        refine ⟨hn.artifact, fun child hcap => ?_, fun child hcap => ?_⟩
        · rw [Option.mem_def.1 hcap] at hchild
          exact hchild.constants
        · rw [Option.mem_def.1 hcap] at hchild
          exact hchild.nested
    · obtain rfl := List.mem_singleton.1 ht
      exact hnode hown hrec

/-- The walk over a tree records the tree. -/
theorem walks_covers (hroot : root.SharesNodes) :
    Walks (fun id => id) (fun t => t.Occurs root) fun es x _ => Covers c root x (es.map Prod.snd) where
  nil _ capture _ h := .of_pure ⟨h, .refl capture, fun _ ht => by cases ht⟩
  append hx hy scope capture s h := by
    refine (hx scope capture s h).bind fun r s' _ hr => (hy scope r.2 s' hr.1).mono fun r' _ _ hr' => ?_
    refine ⟨hr'.1, hr.2.1.trans hr'.2.1, fun t hmem => ?_⟩
    rw [List.map_append] at hmem
    rcases List.mem_append.1 hmem with hmem | hmem
    · exact (hr.2.2 t hmem).mono hr'.2.1
    · exact hr'.2.2 t hmem
  within vars ts _ _ hx scope capture s h := by
    have hsame : (ts.map fun t => (vars, t)).map Prod.snd = (ts.map fun t => (([] : List Param), t)).map Prod.snd := by
      simp
    rw [hsame]
    exact hx _ capture s h
  decline _ _ _ _ _ _ _ _ := .decline _
  child ho ht := (Tree.Occurs.of_child ht).trans ho
  constant {id ty v} ho scope capture s hc := by
    rw [constant_apply]
    refine .of_pure ?_
    split
    · rename_i himm
      refine ⟨hc, .refl capture, fun t ht => ?_⟩
      obtain rfl := List.mem_singleton.1 ht
      exact .node (by simp) (fun _ hs hv => by cases hs; simp [himm] at hv) (by simp)
    · rename_i himm
      have hg := Capture.Grows.addConstant capture ⟨id, v, ty⟩
      refine ⟨hc.grow hg (fun r hr => ?_) (by simp) (by simp), hg.within, fun t ht => ?_⟩
      · obtain rfl := List.mem_singleton.1 hr
        exact ⟨ho, by simpa using himm⟩
      · obtain rfl := List.mem_singleton.1 ht
        exact .node (by simp) (fun _ _ _ => hg.taken _ (List.mem_singleton_self _)) (by simp)
  parameter {id ty p} _ scope capture s hc := by
    rw [addParam_apply]
    have hg := Capture.Grows.capturing scope.declares capture p
    refine .of_pure ⟨hc.grow hg (by simp) (by simp) (by simp), hg.within, fun t ht => ?_⟩
    obtain rfl := List.mem_singleton.1 ht
    exact .node (by simp) (by simp) (by simp)
  lambda ho hx := covers_lambda hroot ho hx
  inner _ hs hx scope capture s hc := by
    refine (hx scope capture s hc).mono fun r _ _ hr => ⟨hr.1, hr.2.1, fun t ht => ?_⟩
    obtain rfl := List.mem_singleton.1 ht
    refine .node (fun t ht => hr.2.2 t ?_) (fun v hv => absurd hv (hs.1 v)) fun params body name hl =>
      absurd hl (hs.2.2 params body name)
    rw [Shape.enclosed_snd]
    exact ht

theorem covers_analysis (hroot : root.SharesNodes) {t : Tree} (ho : t.Occurs root) : Covers c root t.analysis [t] :=
  (walks_covers hroot).analysis ho

end Analyze

namespace CompileM

variable {c : Compiler}

theorem avoids_analyze {body : Tree} (h : body.SharesNodes) (params : List Param) :
    Avoids Refusal.IsOfLayout c (analyze body params) fun info => info.Lists body ∧ info.Records body :=
  Promise.Kept.avoids fun s => (Analyze.covers_analysis h .here ⟨params, []⟩ {} s (.empty body)).bind fun _ _ _ hr =>
    .of_pure ⟨hr.1, hr.2.2 body (List.mem_singleton_self body)⟩

/-- The analysis of a body, with any sharing of nodes, does not meet a defect of the layout in the units
that it compiles on the way. What it gives lists the constants that do not fit into an instruction and
the lambdas, at every depth and each once, and with it the unit's own code meets no such defect either. -/
theorem analyze_records_lookups {body : Tree} (h : body.SharesNodes) (params : List Param) (s : Session) :
    (∀ d, (analyze body params c s).1 = .error (.defect d) → d.isOfLayout = false) ∧
      ∀ info, (analyze body params c s).1 = .ok info →
        info.constantNodes.Nodup ∧
        (∀ r, r ∈ info.constants ↔
          Tree.Occurs (.node r.node r.ty (.constant r.value)) body ∧ r.value.isImmediate = false) ∧
        info.nestedNodes.Nodup ∧
        (∀ id, id ∈ info.nestedNodes ↔
          ∃ ty formals inner name, Tree.Occurs (.node id ty (.lambda formals inner name)) body) ∧
        ∀ operators name formals ret limit d,
          Emit.unit operators name body formals ret info (if info.isEmpty then none else some (info.layout limit)) =
            .error (.defect d) → d.isOfLayout = false := by
  have hm := avoids_analyze (c := c) h params s
  refine ⟨fun d hd => by simpa [hd, Refusal.IsOfLayout] using hm, fun info hi => ?_⟩
  obtain ⟨hl, hr⟩ : info.Lists body ∧ info.Records body := by simpa [hi] using hm
  refine ⟨hl.nodup, fun r => ⟨hl.constants r, ?_⟩, hl.nodup_nested, fun id => ⟨?_, ?_⟩, ?_⟩
  · rintro ⟨ho, himm⟩
    -- the record with this node is of this constant
    obtain ⟨r', hr', hnode⟩ := List.mem_map.1 (hr.constants _ _ _ ho himm)
    have heq := h _ _ (hl.constants r' hr').1 ho hnode
    obtain ⟨node, value, ty⟩ := r
    obtain ⟨node', value', ty'⟩ := r'
    simp only [Tree.node.injEq, Shape.constant.injEq] at heq
    obtain ⟨rfl, rfl, rfl⟩ := heq
    exact hr'
  · intro hid
    obtain ⟨n, hn, rfl⟩ := List.mem_map.1 hid
    obtain ⟨ty, formals, inner, name, ho, -⟩ := hl.nested n hn
    exact ⟨ty, formals, inner, name, ho⟩
  · rintro ⟨ty, formals, inner, name, ho⟩
    exact hr.nested id ty formals inner name ho
  · intro operators name formals ret limit d hd
    simpa [Refusal.IsOfLayout] using Emit.unit_avoids hr hl.provides hd

/-- Adds the result of a lambda that calls another one to the result of that other one. The inner lambda
holds a constant that fits into no instruction, and both the walk and the outer lambda come to it. -/
def sharedInner : Tree :=
  let i32 : Ty := .int .i32
  let thunk : Ty := Signature.toTy ⟨[], i32⟩
  let inner : Tree := .node 2 thunk (.lambda []
    (.node 1 i32 (.unary .arrayLength (.node 0 (.array i32) (.constant (.array ⟨0, i32⟩))) false)) none)
  let outer : Tree := .node 4 thunk (.lambda [] (.node 3 i32 (.invoke inner [])) none)
  .node 7 i32 (.arith .add (.node 5 i32 (.invoke outer [])) (.node 6 i32 (.invoke inner [])) false none)

theorem analyze_records_lookups_sharedInner :
    sharedInner.SharesNodes ∧ ∃ info, (analyze sharedInner [] ⟨{}, []⟩ {}).1 = .ok info ∧
      info.constantNodes = [0] ∧ info.nestedNodes = [2, 4] ∧
      (∀ r, r ∈ info.constants ↔
        Tree.Occurs (.node r.node r.ty (.constant r.value)) sharedInner ∧ r.value.isImmediate = false) ∧
      (∀ id, id ∈ info.nestedNodes ↔
        ∃ ty formals inner name, Tree.Occurs (.node id ty (.lambda formals inner name)) sharedInner) := by
  have hshares : sharedInner.SharesNodes := by
    refine Tree.sharesNodes_of_named ?_
    simp only [sharedInner, Tree.all_node, Shape.children, List.forall_mem_cons, List.not_mem_nil, IsEmpty.forall_iff,
      implies_true, and_true]
    and_intros <;> rfl
  have hrun : (analyze sharedInner [] ⟨{}, []⟩ {}).1.toOption.any
      (fun info => info.constantNodes == [0] && info.nestedNodes == [2, 4]) = true := by
    decide +kernel
  rcases hx : (analyze sharedInner [] ⟨{}, []⟩ {}).1 with e | info <;> rw [hx] at hrun
  · cases hrun
  · simp only [Except.toOption, Option.any_some, Bool.and_eq_true, beq_iff_eq] at hrun
    obtain ⟨-, hconstants, -, hnested, -⟩ := (analyze_records_lookups (c := ⟨{}, []⟩) hshares [] {}).2 info hx
    exact ⟨hshares, info, rfl, hrun.1, hrun.2, hconstants, hnested⟩

end CompileM

end ExprCompiler
