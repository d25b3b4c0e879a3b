/-
The code of a node that is formed well keeps to the depths: it leaves exactly the node's value, or
nothing if the value is void or not wanted, and so do the codes for its address and for assignments to
it. Each kind of node has a lemma; they are put together over the tree.
-/
import ExprCompiler.Proofs.Emit.Region
import ExprCompiler.Proofs.Tree

namespace ExprCompiler

/-- The number of values of a node of a type. -/
def Ty.count (ty : Ty) : Nat :=
  if ty.isVoid then 0 else 1

/-- The closures that a unit builds for its nested lambdas have the sizes of their layouts. -/
def Capture.Coherent (c : Capture) : Prop :=
  ∀ n ∈ c.nested, ∀ child u l, n.capture = some child → n.artifact = .curryable u l → l.size = child.size

theorem Ty.count_eq_one {ty : Ty} (h : ty.isVoid = false) : ty.count = 1 := by
  simp [Ty.count, h]

theorem Ty.count_of_isVoid {ty : Ty} {v : Bool} (h : ty.isVoid = v) : ty.count = if v then 0 else 1 := by
  rw [Ty.count, h]

namespace Emit

open EmitM

variable {ctx : EmitContext} {m : Nat} {P : Tries} {ty : Ty} {method : Option Method} {args : List Emitted}
  {left right : Emitted}

/-! ## Variables and closure items -/

theorem isOfCode_slot {l : Layout} {kind : ItemKind} {i : Nat} {d : Defect} (h : l.slot kind i = .error d) :
    d.isOfCode = false := by
  unfold Layout.slot at h
  split at h
  · cases h
  · cases h
    rfl

theorem emits_layout : Emits ctx m m layout P := by
  refine .bind_read ?_
  split
  · exact .of_pure m _
  · exact .defect rfl

theorem emits_found (i : Option Nat) : Emits ctx m m (found i) P := by
  cases i with
  | none => exact .defect rfl
  | some i => exact .of_pure m i

theorem emits_resolve (p : Param) : Emits ctx m m (resolve p) P := by
  refine .bind_read ?_
  split
  · exact .of_pure m _
  · split
    · exact .of_pure m _
    · split
      · exact .bind (.check fun _ => isOfCode_slot) fun _ => .of_pure m _
      · exact .declined _

theorem emits_loadItem (slot : Nat) (ty : Ty) : Emits ctx 0 1 (loadItem slot ty) P := by
  refine Emits.bind emits_layout fun l => ?_
  split
  · exact .emit (.loadItem .fixed slot) rfl
  · refine Emits.bind (.emit (.loadItem .indexed slot) rfl) fun _ => ?_
    exact .ite (fun _ => .emit (.unbox ty) rfl) fun _ =>
      .ite (fun _ => .emit (.castClass ty) rfl) fun _ => .of_pure 1 ()

theorem emits_loadVar (var : FrameVar) (ty : Ty) : Emits ctx 0 1 (loadVar var ty) P := by
  cases var with
  | arg i => exact .emit (.loadArg i) rfl
  | localVar i => exact .emit (.loadLocal i) rfl
  | closure slot => exact emits_loadItem slot ty

theorem emits_storeVar (var : FrameVar) : Emits ctx 1 0 (storeVar var) P := by
  cases var with
  | arg i => exact .emit (.storeArg i) rfl
  | localVar i => exact .emit (.storeLocal i) rfl
  | closure slot => exact Emits.bind emits_layout fun l => .emit (.storeItem l.strategy slot) rfl

theorem emits_loadVarAddr (var : FrameVar) : Emits ctx 0 1 (loadVarAddr var) P := by
  cases var with
  | arg i => exact .emit (.loadArgAddr i) rfl
  | localVar i => exact .emit (.loadLocalAddr i) rfl
  | closure slot => exact .emit (.loadItemAddr slot) rfl

theorem emits_loadConstant (node : NodeId) (ty : Ty) : Emits ctx 0 1 (loadConstant node ty) P :=
  .bind_read (Emits.bind (emits_found _) fun _ => Emits.bind emits_layout fun _ =>
    Emits.bind (.check fun _ => isOfCode_slot) fun _ => emits_loadItem _ _)

theorem emits_loadNested (node : NodeId) (ty : Ty) : Emits ctx 0 1 (loadNested node ty) P :=
  .bind_read (Emits.bind (emits_found _) fun _ => Emits.bind emits_layout fun _ =>
    Emits.bind (.check fun _ => isOfCode_slot) fun _ => emits_loadItem _ _)

/-- A value that is not wanted is dropped; a value is never wanted of a void node. -/
theorem emits_settle {usage : Usage} (h : usage = .value → ty.isVoid = false) :
    Emits ctx ty.count usage.count (settle usage ty) P := by
  cases usage with
  | value =>
    rw [Ty.count_eq_one (h rfl)]
    exact .of_pure 1 ()
  | discard =>
    cases hv : ty.isVoid with
    | false =>
      rw [Ty.count_eq_one hv]
      simp only [settle, hv, Bool.false_eq_true, not_false_eq_true, and_self, if_true]
      exact .emit .pop rfl
    | true =>
      rw [Ty.count_of_isVoid hv]
      simp only [settle, hv, not_true_eq_false, and_false, if_false]
      exact .of_pure 0 ()

theorem emits_storeBy {store : EmitM Unit} {n : Nat} (hs : Emits ctx (n + 1) 0 store P) (ty : Ty) (usage : Usage) :
    Emits ctx (n + 1) usage.count (storeBy store ty usage) P := by
  cases usage with
  | value =>
    simp only [storeBy, keep, if_true, bind_assoc, pure_bind]
    refine Emits.bind (.newLocal _ ty) fun i => Emits.bind (n := n + 2) ?_ fun _ => Emits.bind (n := n + 1) ?_ fun _ =>
      hs.bind fun _ => .emit (.loadLocal i) rfl
    · exact ((Emits.emit .dup rfl).add n).cast (Nat.add_comm 1 n) (Nat.add_comm 2 n)
    · exact ((Emits.emit (.storeLocal i) rfl).add (n + 1)).cast (Nat.add_comm 1 (n + 1)) (Nat.zero_add _)
  | discard => exact hs.bind fun _ => .of_pure 0 ()

/-! ## Nodes that leave their value -/

/-- Two values and an instruction on them. -/
theorem emits_pair {x y : EmitM Unit} {n : Nat} {z : EmitM Unit} (hx : Emits ctx 0 1 x P) (hy : Emits ctx 0 1 y P)
    (hz : Emits ctx 2 n z P) : Emits ctx 0 n (do x; y; z) P :=
  hx.bind fun _ => (hy.add 1).bind fun _ => hz

theorem emits_values {cs : List Emitted} (h : ∀ c ∈ cs, Emits ctx 0 1 c.value P) :
    Emits ctx m (m + cs.length) (values cs) P :=
  .forM m cs h

theorem emits_backed {f : Method} {n : Nat} (h : f.Backs n ty) : Emits ctx n ty.count (emit (.call f)) P := by
  have he : Emits ctx (Instr.call f).pops (Instr.call f).pushes (emit (.call f)) P := .emit (.call f) rfl
  simpa [Instr.pops, Instr.pushes, h.static, h.params, Ty.count_of_isVoid h.void] using he

theorem emits_constant (id : NodeId) (v : Value) : Emits ctx 0 1 (constant id v) P := by
  refine .ite (fun _ => .emit (.const v) rfl) fun _ => .bind_read (Emits.bind (emits_found _) fun _ => ?_)
  exact Emits.bind emits_layout fun _ => Emits.bind (.check fun _ => isOfCode_slot) fun _ =>
    .bind_read (emits_loadItem _ _)

theorem emits_convert {operand : Emitted} {checked : Bool}
    (ho : Emits ctx 0 1 operand.value P) (hf : ∀ f ∈ method, f.Backs 1 ty) (hv : method = none → ty.isVoid = false) :
    Emits ctx 0 ty.count (convert ty operand checked method) P := by
  cases method with
  | some f => exact ho.bind fun _ => emits_backed (hf f rfl)
  | none =>
    rw [Ty.count_eq_one (hv rfl)]
    unfold convert
    simp only
    split
    · exact .decline _
    · refine ho.bind fun _ => .forM_keep 1 _ fun s _ => ?_
      cases s with
      | numeric ty mode => exact .emit (.convert ty mode) rfl
      | unwrap => exact .emit .unwrap rfl
      | unbox ty => exact .emit (.unbox ty) rfl
      | cast ty => exact .emit (.castClass ty) rfl

theorem emits_call {receiver : Option Emitted} {f : Method}
    (hr : ∀ r ∈ receiver, Emits ctx 0 1 r.receiver P) (ha : ∀ a ∈ args, Emits ctx 0 1 a.value P)
    (hlen : args.length = f.params.length) (hv : ty.isVoid = f.ret.isVoid) :
    Emits ctx 0 ty.count (call receiver f args) P := by
  have hcall : Emits ctx ((if f.isStatic then 0 else 1) + args.length) ty.count (emit (.call f)) P := by
    have he : Emits ctx (Instr.call f).pops (Instr.call f).pushes (emit (.call f)) P := .emit (.call f) rfl
    simpa [Instr.pops, Instr.pushes, hlen, Ty.count_of_isVoid hv, Nat.add_comm] using he
  unfold call
  cases receiver with
  | none =>
    cases hs : f.isStatic <;> rw [hs] at hcall
    · exact Emits.bind (n := 1) (.decline _) fun _ => (emits_values ha).bind fun _ => hcall
    · exact (emits_values ha).bind fun _ => hcall
  | some r =>
    cases hs : f.isStatic <;> rw [hs] at hcall
    · exact (hr r rfl).bind fun _ => (emits_values ha).bind fun _ => hcall
    · exact Emits.bind (n := 0) (.decline _) fun _ => (emits_values ha).bind fun _ => hcall

theorem isOfCode_describe {f : Member} {d : Defect} (h : f.describe = .error d) : d.isOfCode = false := by
  cases f with
  | field cls i =>
    simp only [Member.describe, Member.name, Member.fieldAt] at h
    split at h
    · cases h
    · cases h
      rfl
  | property p | static s => cases h

theorem emits_readMember {receiver : Option Emitted} {f : Member} (hr : ∀ r ∈ receiver, Emits ctx 0 1 r.receiver P) :
    Emits ctx 0 1 (readMember receiver f) P := by
  have hno : Emits ctx 0 1 (do decline (.readMismatch (← check f.describe)) : EmitM Unit) P :=
    Emits.bind (.check fun _ => isOfCode_describe) fun _ => .decline _
  cases f with
  | static s =>
    cases receiver with
    | none => exact .emit (.loadStatic s) rfl
    | some r => exact hno
  | field cls i =>
    cases receiver with
    | none => exact hno
    | some r => exact (hr r rfl).bind fun _ => .emit (.loadField i) rfl
  | property p =>
    cases receiver with
    | none => exact Emits.bind (.emit (.const .null) rfl) fun _ => .emit (.getProperty p) rfl
    | some r => exact (hr r rfl).bind fun _ => .emit (.getProperty p) rfl

/-- A store takes the value and, unless the member is static, the receiver. -/
theorem emits_storeMember (f : Member) : Emits ctx (if f.isStatic then 1 else 2) 0 (storeMember f) P := by
  cases f with
  | field cls i => exact .emit (.storeField i) rfl
  | property p => exact .ite (fun _ => .emit (.setProperty p) rfl) fun _ => .decline _
  | static s => exact .emit (.storeStatic s) rfl

theorem emits_bindings {j : Nat} {target : EmitM Unit} {bs : List (Binding Emitted)} (ht : Emits ctx j (j + 1) target P)
    (hb : ∀ b ∈ bs, Emits ctx 0 1 b.value.value P) : Emits ctx j j (bindings target bs) P := by
  refine .forM_keep j bs fun b hmem => ?_
  have hstore : Emits ctx _ _ (storeMember b.member) P := (emits_storeMember b.member).add j
  cases hs : b.member.isStatic <;> rw [hs] at hstore
  · refine ht.bind fun _ => ?_
    refine Emits.bind (((hb b hmem).add (j + 1)).cast (Nat.zero_add _) rfl) fun _ => ?_
    exact hstore.cast (by simp; omega) (Nat.zero_add j)
  · refine Emits.bind (((hb b hmem).add j).cast (Nat.zero_add _) rfl) fun _ => ?_
    exact hstore.cast (by simp) (Nat.zero_add j)

theorem emits_memberInit {target : Emitted} {bs : List (Binding Emitted)} (usage : Usage)
    (ht : Emits ctx 0 1 target.value P)
    (hvoid : target.ty.isVoid = true → ∀ b, ∃ d, target.value ctx b = .error (.declined d))
    (hb : ∀ b ∈ bs, Emits ctx 0 1 b.value.value P) : Emits ctx 0 usage.count (memberInit target bs usage) P := by
  cases hv : target.ty.isVoid with
  | true => exact .of_declines (hvoid hv) _
  | false =>
    refine ht.bind fun _ => .ite (fun _ => ?_) fun _ => ?_
    · refine Emits.bind (.newLocal 1 _) fun i => Emits.bind (.emit (.storeLocal i) rfl) fun _ => ?_
      refine Emits.bind (emits_bindings (.emit (.loadLocalAddr i) rfl) hb) fun _ => ?_
      cases usage with
      | value => exact .emit (.loadLocal i) rfl
      | discard => exact .of_pure 0 ()
    · refine Emits.bind (emits_bindings (.emit .dup rfl) hb) fun _ => ?_
      rw [← Ty.count_eq_one hv]
      exact emits_settle fun _ => hv

/-- The code for the function of a nested lambda whose item is known. -/
def building (slot : Nat) (n : Nested) : EmitM Unit := do
  loadItem slot n.itemType
  match n.capture, n.artifact with
  | none, _ => return ()
  | some child, .curryable _ childLayout =>
    child.constants.forM fun c => loadConstant c.node c.ty
    child.params.forM fun p => do loadVar (← resolve p) p.ty
    child.nested.forM fun n => loadNested n.node n.itemType
    emit (.newClosure childLayout)
    emit .curry
  | some _, _ => throw (.defect .curryableWithoutLayout)

/-- The code for the function of a nested lambda that is known by its index. -/
def buildingAt (i : Nat) : EmitM Unit := do
  let slot ← check ((← layout).slot .nested i)
  match (← read).capture.nested[i]? with
  | none => throw (.defect .notAnalysed)
  | some n => building slot n

theorem lambda_eq (id : NodeId) : lambda id = (do buildingAt (← found ((← read).capture.nestedIndex? id))) := rfl

/-- The closure of a nested lambda is built from as many items as its layout has. -/
theorem emits_building {n : Nested} (slot : Nat)
    (hc : ∀ child u l, n.capture = some child → n.artifact = .curryable u l → l.size = child.size) :
    Emits ctx 0 1 (building slot n) P := by
  refine Emits.bind (emits_loadItem slot _) fun _ => ?_
  split
  · exact .of_pure 1 ()
  · rename_i child u cl hchild hart
    refine Emits.bind (.forM 1 _ fun _ _ => emits_loadConstant _ _) fun _ => ?_
    refine Emits.bind (.forM _ _ fun p _ => Emits.bind (emits_resolve p) fun _ => emits_loadVar _ _) fun _ => ?_
    refine Emits.bind (.forM _ _ fun _ _ => emits_loadNested _ _) fun _ => ?_
    refine Emits.bind (n := 2) ?_ fun _ => .emit .curry rfl
    refine ((Emits.emit (.newClosure cl) rfl).add 1).cast ?_ rfl
    simp only [Instr.pops, hc child u cl hchild hart, Capture.size]
    omega
  · exact .defect rfl

theorem emits_buildingAt (hc : ctx.capture.Coherent) (i : Nat) : Emits ctx 0 1 (buildingAt i) P := by
  refine Emits.bind emits_layout fun l => Emits.bind (.check fun _ => isOfCode_slot) fun slot => .bind_read ?_
  rcases hn : ctx.capture.nested[i]? with _ | n
  · exact .defect rfl
  · exact emits_building slot (hc n (List.mem_of_getElem? hn))

theorem emits_lambda (id : NodeId) (hc : ctx.capture.Coherent) : Emits ctx 0 1 (lambda id) P := by
  rw [lambda_eq]
  exact .bind_read (Emits.bind (emits_found _) fun i => emits_buildingAt hc i)

/-- An assignment through an indexer. -/
theorem emits_storeIndex {receiver : Emitted} {ix : Indexer} {source : EmitM Unit}
    (hr : Emits ctx 0 1 receiver.receiver P) (ha : ∀ a ∈ args, Emits ctx 0 1 a.value P)
    (hsource : Emits ctx 0 1 source P) (hlen : args.length = ix.params.length) (ty : Ty) (usage : Usage) :
    Emits ctx 0 usage.count (do
      receiver.receiver
      values args
      source
      storeBy (emit (.setIndex ix)) ty usage) P := by
  refine hr.bind fun _ => (emits_values ha).bind fun _ => ?_
  refine Emits.bind ((hsource.add _).cast (Nat.zero_add _) rfl) fun _ => ?_
  refine (emits_storeBy (n := ix.params.length + 1) (.emit (.setIndex ix) rfl) ty usage).cast ?_ rfl
  omega

theorem emits_invoke {target : Emitted} (ht : Emits ctx 0 1 target.value P)
    (ha : ∀ a ∈ args, Emits ctx 0 1 a.value P) : Emits ctx 0 ty.count (invoke ty target args) P := by
  refine .optional (.decline _) (ht.bind fun _ => (emits_values ha).bind fun _ => ?_)
  refine (Emits.emit (.invoke args.length (!ty.isVoid)) rfl).cast (Nat.add_comm _ 1) ?_
  cases hv : ty.isVoid <;> simp [Instr.pushes, Ty.count, hv]

theorem emits_compare {op : CmpOp}
    (hl : Emits ctx 0 1 left.value P) (hr : Emits ctx 0 1 right.value P)
    (hw : match CompareForm.choose? ctx.operators op left.ty right.ty method with
      | some (.method f) => f.Backs 2 ty
      | _ => ty.isVoid = false) : Emits ctx 0 ty.count (compare op left right method) P := by
  refine .bind_read ?_
  rcases hform : CompareForm.choose? ctx.operators op left.ty right.ty method with _ | form <;> rw [hform] at hw
  · exact .decline _
  · refine emits_pair hl hr ?_
    cases form with
    | method f => exact Emits.bind (emits_backed hw) fun _ => .of_pure _ ()
    | builtin =>
      rw [Ty.count_eq_one hw]
      exact Emits.bind (.emit (.compare op) rfl) fun _ => .of_pure 1 ()
    | generic =>
      rw [Ty.count_eq_one hw]
      unfold compareInstrs
      simp only
      split
      · exact Emits.bind (.emit .genericEq rfl) fun _ => .of_pure 1 ()
      · exact Emits.bind (.emit .genericEq rfl) fun _ => Emits.bind (.emit .complement rfl) fun _ => .of_pure 1 ()

theorem emits_arith {op : ArithOp} {checked : Bool}
    (hl : Emits ctx 0 1 left.value P) (hr : Emits ctx 0 1 right.value P)
    (hw : match ArithForm.choose? ctx.operators op left.ty right.ty checked method with
      | some (.method f) => f.Backs 2 ty
      | _ => ty.isVoid = false) : Emits ctx 0 ty.count (arith op left right checked method) P := by
  refine .bind_read ?_
  rcases hform : ArithForm.choose? ctx.operators op left.ty right.ty checked method with _ | form <;> rw [hform] at hw
  · exact .decline _
  · refine emits_pair hl hr ?_
    cases form with
    | method f => exact emits_backed hw
    | concat =>
      rw [Ty.count_eq_one hw]
      exact .emit .concat rfl
    | builtin mode =>
      rw [Ty.count_eq_one hw]
      exact .emit (.arith op mode) rfl

theorem emits_unary {op : UnaryOp} {operand : Emitted} {checked : Bool} (ho : Emits ctx 0 1 operand.value P) :
    Emits ctx 0 1 (unary op operand checked) P := by
  unfold unary
  rcases hi : unaryInstr? op operand.ty checked with _ | i
  · exact .decline _
  · have hshape : (∃ mode, i = .negate mode) ∨ i = .complement ∨ i = .arrayLength := by
      unfold unaryInstr? at hi
      cases op <;> simp only [Option.ite_none_right_eq_some, Option.some.injEq] at hi
      · exact .inl ⟨_, hi.2.symm⟩
      · exact .inr (.inl hi.2.symm)
      · exact .inr (.inr hi.2.symm)
    refine ho.bind fun _ => ?_
    rcases hshape with ⟨mode, rfl⟩ | rfl | rfl
    · exact .emit (.negate mode) rfl
    · exact .emit .complement rfl
    · exact .emit .arrayLength rfl

/-! ## Branches and statements -/

/-- A test and code that is not always needed after it, with the label made before the test. -/
theorem emits_skip {j : Nat} (kind : BranchKind) {test x : EmitM Unit} (hk : (Instr.branch kind 0).pops = 1)
    (ht : Emits ctx 0 (j + 1) test P) (hx : Emits ctx j j x P) :
    Emits ctx 0 j (do
      let done ← newLabel
      test
      branch kind done
      x
      mark done) P := by
  intro b D hb _
  refine .bind_ok (newLabel_apply ctx b) ((ht _ D hb.newLabel (by simp)).bind fun _ b₁ ⟨D₁, h₁⟩ => ?_)
  have hskip := Yields.skip kind hk hx h₁.tracks (h₁.le (by simp)) (h₁.grows.kept _ _ (by simp) Builder.labels_newLabel)
  have hlabel : ∀ d, b.Guards P d b.newLabel.2 := fun _ => .same rfl rfl le_rfl
  refine hskip.mono fun _ b₂ ⟨D₂, h₂, hbound, _⟩ => ⟨D₂, h₂.tracks, ?_, ?_, h₁.shifts.trans h₂.shifts,
    fun d hd => (hlabel d).trans (h₁.guards_trans h₂ hd)⟩
  · refine ((Builder.Grows.newLabel.trans (h₁.grows.mono (by simp))).trans h₂.grows).close _ fun l hl _ => ?_
    obtain rfl := List.mem_singleton.1 hl
    exact ⟨le_rfl, hbound⟩
  · rw [h₂.nesting, h₁.nesting]
    rfl

theorem emits_logical {op : LogicalOp} (hl : Emits ctx 0 1 left.value P)
    (hr : Emits ctx 0 1 right.value P) : Emits ctx 0 1 (logical op left right) P := by
  have hcode := fun kind hk => emits_skip (j := 1) kind hk (Emits.bind hl fun _ => .emit .dup rfl)
    (Emits.bind (n := 0) (.emit .pop rfl) fun _ => hr)
  simp only [bind_assoc] at hcode
  exact .optional (.decline _) (hcode _ (by cases op <;> rfl))

/-- A test and the two ways after it, with the labels made before the test. -/
theorem emits_fork {j k : Nat} (kind : BranchKind) {test x y : EmitM Unit} (hk : (Instr.branch kind 0).pops = 1)
    (ht : Emits ctx 0 (j + 1) test P) (hx : Emits ctx j k x P) (hy : Emits ctx j k y P) :
    Emits ctx 0 k (do
      let otherwise ← newLabel
      let done ← newLabel
      test
      branch kind otherwise
      x
      branch .always done
      mark otherwise
      y
      mark done) P := by
  intro b D hb _
  refine .bind_ok (newLabel_apply ctx b) (.bind_ok (newLabel_apply ctx _) ?_)
  refine (ht _ D hb.newLabel.newLabel (by simp)).bind fun _ b₁ htested => ?_
  obtain ⟨D₁, h₁⟩ := htested
  have hsize : b.newLabel.2.labels.size = b.labels.size + 1 := by simp [Builder.newLabel]
  have hfork := Yields.fork kind hk hx hy h₁.tracks (h₁.le (by simp)) (by omega)
    (h₁.grows.kept _ _ (by simp) (Builder.labels_newLabel_of_some Builder.labels_newLabel))
    (h₁.grows.kept _ _ (by simp) Builder.labels_newLabel)
  refine hfork.mono fun _ b₂ hjoined => ?_
  obtain ⟨D₂, h₂, hbound, -⟩ := hjoined
  have hlabels : ∀ d, b.Guards P d b.newLabel.2.newLabel.2 := fun _ => .same rfl rfl le_rfl
  refine ⟨D₂, h₂.tracks, ?_, ?_, h₁.shifts.trans h₂.shifts, fun d hd => (hlabels d).trans (h₁.guards_trans h₂ hd)⟩
  · have hnew : Builder.Grows [b.labels.size, b.newLabel.2.labels.size] b D b.newLabel.2.newLabel.2 D :=
      (Builder.Grows.newLabel.mono (by simp)).trans (Builder.Grows.newLabel.mono (by simp))
    refine ((hnew.trans (h₁.grows.mono (by simp))).trans h₂.grows).close _ fun l hl _ => ⟨?_, hbound l hl⟩
    rcases List.mem_cons.1 hl with rfl | hl
    · exact le_rfl
    · obtain rfl := List.mem_singleton.1 hl
      omega
  · rw [h₂.nesting, h₁.nesting]
    rfl

theorem emits_coalesce (hl : Emits ctx 0 1 left.value P)
    (hr : Emits ctx 0 1 (right.valueAs ty .value) P) : Emits ctx 0 1 (coalesce ty left right) P := by
  have hcode := fun x (hx : Emits ctx 1 1 x P) => emits_fork (j := 1) .ifNull rfl
    (Emits.bind hl fun _ => .emit .dup rfl) hx (Emits.bind (.emit .pop rfl) fun _ => hr)
  unfold coalesce
  split
  · simpa only [bind_assoc] using hcode _ (.emit .unwrap rfl)
  · simpa only [bind_assoc, pure_bind] using hcode _ (.of_pure 1 ())

theorem emits_cond {test ifTrue ifFalse : Emitted} {usage : Usage} (ht : Emits ctx 0 1 test.value P)
    (ha : Emits ctx 0 (usage.unlessVoid ty).count (ifTrue.valueAs ty (usage.unlessVoid ty)) P)
    (hb : Emits ctx 0 (usage.unlessVoid ty).count (ifFalse.valueAs ty (usage.unlessVoid ty)) P) :
    Emits ctx 0 (usage.unlessVoid ty).count (cond ty test ifTrue ifFalse usage) P :=
  .optional (.decline _) (emits_fork .ifFalse rfl ht ha hb)

theorem emits_fresh (p : Param) : Emits ctx 0 0 (fresh p) P :=
  Emits.bind (.newLocal 0 p.ty) fun i => Emits.bind (.emit (.default p.ty) rfl) fun _ =>
    Emits.bind (.emit (.storeLocal i) rfl) fun _ => .of_pure 0 _

theorem emits_declare (vars : List Param) : Emits ctx 0 0 (declare vars) P :=
  .mapM_keep 0 vars fun p _ => emits_fresh p

theorem emits_statements {usage : Usage} : ∀ cs : List Emitted, (∀ c ∈ cs, Emits ctx 0 0 c.discard P) →
    (∀ c ∈ cs, Emits ctx 0 usage.count (c.valueAs ty usage) P) → Emits ctx 0 usage.count (statements ty usage cs) P
  | [], _, _ => by
    cases usage with
    | value => exact .emit (.default ty) rfl
    | discard => exact .of_pure 0 ()
  | [last], _, hv => hv last List.mem_cons_self
  | c :: c' :: cs, hd, hv => (hd c List.mem_cons_self).bind fun _ =>
      emits_statements (c' :: cs) (fun x hx => hd x (List.mem_cons_of_mem c hx)) fun x hx =>
        hv x (List.mem_cons_of_mem c hx)

theorem emits_throwing {operand : Option Emitted} {n : Nat} (ho : ∀ e ∈ operand, Emits ctx 0 1 e.value P) :
    Emits ctx 0 n (throwing operand) P := by
  have hthrow : Emits ctx 1 n (emit .throw) P := .emit_to .throw rfl n fun h => by cases h
  cases operand with
  | some e => exact (ho e rfl).bind fun _ => hthrow
  | none =>
    refine .bind_read ?_
    rcases ctx.catchLocals with _ | ⟨hidden, rest⟩
    · exact Emits.bind (n := 1) (.decline _) fun _ => hthrow
    · exact Emits.bind (.emit (.loadLocal hidden) rfl) fun _ => hthrow

end Emit

/-! ## Trees -/

/-- What is known about the unit around a node suits a table of operators. -/
structure EmitContext.Suits (operators : Overloads) (ctx : EmitContext) : Prop where
  operators : ctx.operators = operators
  capture : ctx.capture.Coherent

theorem EmitContext.Suits.rescope {operators : Overloads} {ctx : EmitContext} (h : ctx.Suits operators)
    (scopes : List (List (Param × Nat))) (catchLocals : List Nat) :
    { ctx with scopes := scopes, catchLocals := catchLocals }.Suits operators :=
  ⟨h.operators, h.capture⟩

/-- A protected region is of the kinds `P`. -/
def Shape.Tried (P : Tries) : Shape Tree → Prop
  | .guarded _ clauses final => P (clauses.map CatchClause.test) final.isSome
  | _ => True

/-- All protected regions of a tree are of the kinds `P`. -/
def Tree.Tried (P : Tries) : Tree → Prop :=
  Tree.All fun _ _ s => s.Tried P

theorem Tree.tried_top (t : Tree) : t.Tried ⊤ := by
  induction t using Tree.induct with
  | node id ty s ih =>
    refine .node ?_ ih
    cases s <;> trivial

/-- The codes of a node keep to the depths. -/
structure Emission.Balanced (operators : Overloads) (P : Tries) (ty : Ty) (e : Emission) : Prop where
  value : ∀ {ctx : EmitContext} (usage : Usage), ctx.Suits operators → EmitM.Emits ctx 0 usage.count (e.value usage) P
  /-- The value of a void node is never given. -/
  void : ty.isVoid = true → ∀ ctx b, ∃ d, e.value .value ctx b = .error (.declined d)
  address : ∀ {ctx : EmitContext}, ctx.Suits operators → EmitM.Emits ctx 0 1 e.address P
  assign : ∀ {ctx : EmitContext} {source : EmitM Unit} (usage : Usage), ctx.Suits operators →
    EmitM.Emits ctx 0 1 source P → EmitM.Emits ctx 0 usage.count (e.assign source usage) P

namespace Emit

open EmitM

variable {ctx : EmitContext} {operators : Overloads} {P : Tries} {id : NodeId} {ty : Ty} {s : Shape Tree}

/-- A child of a node whose codes keep to the depths. -/
abbrev Steady (operators : Overloads) (P : Tries) (c : Emitted) : Prop :=
  Emission.Balanced operators P c.ty c.meaning

namespace Steady

variable {c : Emitted}

theorem value (h : Steady operators P c) (hs : ctx.Suits operators) : Emits ctx 0 1 c.value P :=
  Emission.Balanced.value h .value hs

theorem discard (h : Steady operators P c) (hs : ctx.Suits operators) : Emits ctx 0 0 c.discard P :=
  Emission.Balanced.value h .discard hs

theorem valueAs (h : Steady operators P c) (hs : ctx.Suits operators) (ty : Ty) (usage : Usage) :
    Emits ctx 0 usage.count (c.valueAs ty usage) P := by
  refine .ite (fun hc => ?_) fun _ => Emission.Balanced.value h usage hs
  rw [hc.1]
  exact (h.discard hs).bind fun _ => .emit (.default ty) rfl

theorem receiver (h : Steady operators P c) (hs : ctx.Suits operators) : Emits ctx 0 1 c.receiver P :=
  .ite (fun _ => Emission.Balanced.address h hs) fun _ => h.value hs

end Steady

theorem emits_used (hw : s.WellFormed operators ty)
    (hP : s.Tried P) (hc : ∀ c ∈ s.children, Steady operators P (.of Tree.emission c)) (hs : ctx.Suits operators)
    {usage : Usage} (hu : usage = .value → ty.isVoid = false) :
    Emits ctx 0 usage.count (used id ty (s.map (.of Tree.emission)) usage) P := by
  have hvalue : ∀ c ∈ s.children, Emits ctx 0 1 (Emitted.value (.of Tree.emission c)) P :=
    fun c h => (hc c h).value hs
  have hunless : (usage.unlessVoid ty).count = usage.count := by
    cases usage with
    | value => simp [Usage.unlessVoid, hu rfl]
    | discard => simp [Usage.unlessVoid, Usage.count]
  have hvalues : ∀ {ts : List Tree}, ts ⊆ s.children →
      ∀ a ∈ ts.map (.of Tree.emission), Emits ctx 0 1 (Emitted.value a) P := by
    intro ts hsub a ha
    obtain ⟨t, ht, rfl⟩ := List.mem_map.1 ha
    exact hvalue t (hsub ht)
  have hreceivers : ∀ {r : Option Tree}, r.toList ⊆ s.children →
      ∀ a ∈ r.map (.of Tree.emission), Emits ctx 0 1 (Emitted.receiver a) P := by
    intro r hsub a ha
    obtain ⟨t, ht, rfl⟩ := Option.map_eq_some_iff.1 ha
    exact (hc t (hsub (by simp [ht]))).receiver hs
  have hwanted : ∀ {x : EmitM Unit}, Emits ctx 0 1 x P →
      Emits ctx 0 usage.count (if usage = .value then x else pure ()) P := by
    intro x hx
    cases usage with
    | value => exact hx
    | discard => exact .of_pure 0 ()
  have hsettled : ∀ {x : EmitM Unit}, Emits ctx 0 ty.count x P → Emits ctx 0 usage.count (do x; settle usage ty) P :=
    fun hx => hx.bind fun _ => emits_settle hu
  cases s with
  | constant v => exact hwanted (emits_constant id v)
  | lambda ps body name => exact hwanted (emits_lambda id hs.capture)
  | default => exact hwanted (.emit (.default ty) rfl)
  | parameter p => exact Emits.bind (emits_resolve p) fun _ => hwanted (emits_loadVar _ _)
  | convert e checked f =>
    refine hsettled (emits_convert (hvalue e (by simp)) (fun g hg => ?_) fun hn => ?_)
    · obtain rfl : f = some g := hg
      exact hw
    · subst hn
      exact hw
  | arrayIndex a i =>
    refine hsettled ?_
    rw [Ty.count_eq_one hw]
    exact emits_pair (hvalue a (by simp)) (hvalue i (by simp)) (.emit .loadElem rfl)
  | call r f args =>
    refine hsettled (emits_call (hreceivers ?_) (hvalues ?_) ?_ hw.2)
    · simp
    · simp
    · simpa using hw.1
  | member r f =>
    refine hsettled ?_
    rw [Ty.count_eq_one hw]
    exact emits_readMember (hreceivers (by simp))
  | new ctor args =>
    refine hsettled ?_
    rw [Ty.count_eq_one hw.2]
    refine (emits_values (hvalues (by simp))).bind fun _ => ?_
    exact (Emits.emit (.new ctor) rfl).cast (by simp [Instr.pops, hw.1]) rfl
  | newArray elem items =>
    refine hsettled ?_
    rw [Ty.count_eq_one hw]
    have hcode := (emits_values (m := 0) (hvalues (List.Subset.refl items))).bind fun _ =>
      (Emits.emit (.newArrayOf elem _) rfl).cast (Nat.zero_add _).symm rfl
    exact .optional (.decline _) hcode
  | newArrayOfLength elem n =>
    refine hsettled ?_
    rw [Ty.count_eq_one hw]
    exact (hvalue n (by simp)).bind fun _ => .emit (.newArray elem) rfl
  | memberInit t bs =>
    refine emits_memberInit usage (hvalue t (by simp)) (fun hv b => ?_) fun b hb => ?_
    · exact (hc t (by simp)).void hv ctx b
    · obtain ⟨b, hmem, rfl⟩ := List.mem_map.1 hb
      exact hvalue b.value (List.mem_cons_of_mem t (List.mem_map.2 ⟨b, hmem, rfl⟩))
  | invoke t args =>
    exact hsettled (emits_invoke (hvalue t (by simp)) (hvalues (by simp)))
  | compare op l r f =>
    refine hsettled (emits_compare (hvalue l (by simp)) (hvalue r (by simp)) ?_)
    rw [hs.operators]
    exact hw
  | arith op l r checked f =>
    refine hsettled (emits_arith (hvalue l (by simp)) (hvalue r (by simp)) ?_)
    rw [hs.operators]
    exact hw
  | unary op e checked =>
    refine hsettled ?_
    rw [Ty.count_eq_one hw]
    exact emits_unary (hvalue e (by simp))
  | logical op l r =>
    refine hsettled ?_
    rw [Ty.count_eq_one hw]
    exact emits_logical (hvalue l (by simp)) (hvalue r (by simp))
  | coalesce l r =>
    refine hsettled ?_
    rw [Ty.count_eq_one hw]
    exact emits_coalesce (hvalue l (by simp)) ((hc r (by simp)).valueAs hs ty .value)
  | cond t a b =>
    rw [← hunless]
    exact emits_cond (hvalue t (by simp)) ((hc a (by simp)).valueAs hs ty _)
      ((hc b (by simp)).valueAs hs ty _)
  | assign t v => exact (hc t (by simp)).assign usage hs (hvalue v (by simp))
  | block vars body =>
    rw [← hunless]
    refine Emits.bind (emits_declare vars) fun scope => .within (emits_statements _ (fun c h => ?_) fun c h => ?_)
    · obtain ⟨t, ht, rfl⟩ := List.mem_map.1 h
      exact (hc t ht).discard (hs.rescope _ _)
    · obtain ⟨t, ht, rfl⟩ := List.mem_map.1 h
      exact (hc t ht).valueAs (hs.rescope _ _) ty _
  | guarded body clauses final =>
    rw [← hunless]
    refine emits_guarded ((hc body (by simp)).valueAs hs ty _) (fun c h scope hidden => ?_) (fun f h => ?_) ?_
    · obtain ⟨c, hmem, rfl⟩ := List.mem_map.1 h
      exact (hc c.body (Shape.body_mem_children hmem)).valueAs (hs.rescope _ _) ty _
    · obtain ⟨t, ht, rfl⟩ := Option.map_eq_some_iff.1 h
      exact (hc t (by simp [ht])).discard hs
    · simpa [Shape.Tried, Function.comp_def, CatchClause.map] using hP
  | throw e =>
    refine emits_throwing fun a ha => ?_
    obtain ⟨t, ht, rfl⟩ := Option.map_eq_some_iff.1 ha
    exact hvalue t (by simp [ht])
  | index r ix args =>
    refine hsettled ?_
    rw [Ty.count_eq_one hw.2]
    refine Emits.bind ((hc r (by simp)).receiver hs) fun _ => ?_
    refine (emits_values (hvalues (by simp))).bind fun _ => ?_
    exact (Emits.emit (.getIndex ix) rfl).cast (by simp [Instr.pops, hw.1, Nat.add_comm]) rfl

theorem emits_value (hw : s.WellFormed operators ty) (hP : s.Tried P)
    (hc : ∀ c ∈ s.children, Steady operators P (.of Tree.emission c)) (hs : ctx.Suits operators) (usage : Usage) :
    Emits ctx 0 usage.count (value id ty (s.map (.of Tree.emission)) usage) P := by
  refine .ite (fun _ => .decline _) fun h => emits_used hw hP hc hs fun hu => ?_
  simpa [hu] using h

theorem value_of_isVoid (h : ty.isVoid = true) (s : Shape Emitted) :
    value id ty s .value = decline .voidValue :=
  if_pos ⟨rfl, h⟩

theorem emits_address (hw : s.WellFormed operators ty) (hP : s.Tried P)
    (hc : ∀ c ∈ s.children, Steady operators P (.of Tree.emission c)) (hs : ctx.Suits operators) :
    Emits ctx 0 1 (address id ty (s.map (.of Tree.emission))) P := by
  have hcopy : Emits ctx 0 1 (do
      value id ty (s.map (.of Tree.emission)) .value
      let temp ← newLocal ty
      emit (.storeLocal temp)
      emit (.loadLocalAddr temp)) P :=
    (emits_value hw hP hc hs .value).bind fun _ => Emits.bind (.newLocal 1 ty) fun i =>
      Emits.bind (.emit (.storeLocal i) rfl) fun _ => .emit (.loadLocalAddr i) rfl
  cases s with
  | parameter p => exact Emits.bind (emits_resolve p) fun _ => emits_loadVarAddr _
  | arrayIndex a i =>
    exact emits_pair ((hc a (by simp)).value hs) ((hc i (by simp)).value hs)
      (.emit .loadElemAddr rfl)
  | member r f =>
    cases r with
    | none => exact hcopy
    | some r =>
      cases f with
      | field cls i =>
        exact Emits.bind ((hc r (by simp)).receiver hs) fun _ => .emit (.loadFieldAddr i) rfl
      | property p | static t => exact hcopy
  | _ => exact hcopy

theorem emits_assign (hw : s.WellFormed operators ty)
    (hc : ∀ c ∈ s.children, Steady operators P (.of Tree.emission c)) (hs : ctx.Suits operators)
    {source : EmitM Unit} (hsource : Emits ctx 0 1 source P) (usage : Usage) :
    Emits ctx 0 usage.count (assign ty (s.map (.of Tree.emission)) source usage) P := by
  have hstored : ∀ {store : EmitM Unit}, Emits ctx 1 0 store P → Emits ctx 0 usage.count (do
      source
      if usage = .value then emit .dup
      store) P := by
    intro store hstore
    refine hsource.bind fun _ => ?_
    cases usage with
    | value => exact Emits.bind (.emit .dup rfl) fun _ => hstore.add 1
    | discard => exact hstore
  cases s with
  | parameter p => exact Emits.bind (emits_resolve p) fun var => hstored (emits_storeVar var)
  | member r f =>
    cases r with
    | none =>
      cases f with
      | static t => exact hstored (.emit (.storeStatic t) rfl)
      | field cls i | property p => exact .decline _
    | some r =>
      refine .ite (fun _ => .decline _) fun hstatic => .ite (fun _ => ?_) fun _ => ?_
      · exact Emits.bind (.check fun _ => isOfCode_describe) fun _ => .decline _
      · refine emits_pair ((hc r (by simp)).receiver hs) hsource (emits_storeBy (n := 1) ?_ ty usage)
        have hstore : Emits ctx _ 0 (storeMember f) P := emits_storeMember f
        simpa [hstatic] using hstore
  | arrayIndex a i =>
    refine emits_pair ((hc a (by simp)).value hs) ((hc i (by simp)).value hs) ?_
    refine .ite (fun _ => ?_) fun _ => ?_
    · refine Emits.bind (.emit .loadElemAddr rfl) fun _ => (hsource.add 1).bind fun _ => ?_
      exact emits_storeBy (n := 1) (.emit .storeThrough rfl) ty usage
    · exact (hsource.add 2).bind fun _ => emits_storeBy (n := 2) (.emit .storeElem rfl) ty usage
  | index r ix args =>
    have hargs : ∀ a ∈ args.map (.of Tree.emission), Emits ctx 0 1 (Emitted.value a) P := by
      intro a ha
      obtain ⟨t, ht, rfl⟩ := List.mem_map.1 ha
      exact (hc t (by simp [ht])).value hs
    have hcode := emits_storeIndex ((hc r (by simp)).receiver hs) hargs hsource (by simpa using hw.1) ty usage
    exact .optional (.decline _) hcode
  | _ => exact .decline _

/-- The codes of a tree that is formed well keep to the depths. -/
theorem balanced_emission {t : Tree} (h : t.WellFormed operators) (hP : t.Tried P) :
    Emission.Balanced operators P t.ty t.emission := by
  induction t using Tree.induct with
  | node id ty s ih =>
    have hc : ∀ c ∈ s.children, Steady operators P (.of Tree.emission c) := fun c hc =>
      ih c hc (h.children c hc) (hP.children c hc)
    rw [Tree.emission, Tree.fold_node]
    exact {
      value := fun usage hs => emits_value h.root hP.root hc hs usage
      void := fun hv ctx b => ⟨.unsupported .voidValue, congrFun₂ (value_of_isVoid hv _) ctx b⟩
      address := fun hs => emits_address h.root hP.root hc hs
      assign := fun usage hs hsource => emits_assign h.root hc hs hsource usage }

end Emit

end ExprCompiler
