/-
Protected regions of the first-order language. The body and the clauses come to the region's end or stop with
an exception; an exception of the body goes to the first clause that takes it, as in the evaluator; the finally
body runs on every way out, and an exception that was on its way goes on after it.
-/
import ExprCompiler.Proofs.FirstOrder.Stores
import ExprCompiler.Proofs.Simulation.Regions

namespace ExprCompiler

/-! ## Handlers of the evaluator -/

theorem exists_of_mem_right {α β : Type} {R : α → β → Prop} {xs : List α} {ys : List β} (h : List.Forall₂ R xs ys)
    {y : β} (hy : y ∈ ys) : ∃ x ∈ xs, R x y := by
  induction h with
  | nil => cases hy
  | @cons x y' xs ys hxy _ ih =>
    rcases List.mem_cons.1 hy with rfl | hy
    · exact ⟨x, List.mem_cons_self, hxy⟩
    · obtain ⟨x', hx', hR⟩ := ih hy
      exact ⟨x', List.mem_cons_of_mem x hx', hR⟩

namespace Eval

theorem handle_cons (ty : Ty) (exn : Value) {c : CatchClause Evaluated} (hf : c.filter = none)
    (cs : List (CatchClause Evaluated)) :
    handle ty exn (c :: cs) =
      if exn.hasType c.test then
        EvalM.catching exn (c.var.toList.map (·, exn)) (c.body.valueAs ty)
      else handle ty exn cs := by
  rw [handle, accepted?]
  cases exn.hasType c.test <;> simp [hf]

/-- A body with its clauses. -/
def attempted (ty : Ty) (body : Evaluated) (handlers : List (CatchClause Evaluated)) : EvalM Value := do
  match ← Act.caught (body.valueAs ty) with
  | .ok v => pure v
  | .error exn => handle ty exn handlers

theorem attempted_apply (ty : Ty) (body : Evaluated) (handlers : List (CatchClause Evaluated)) (ec : EvalContext)
    (s : Activation × World) :
    attempted ty body handlers ec s = match body.valueAs ty ec s with
      | (.error (.thrown exn), t) => handle ty exn handlers ec t
      | r => r := by
  rw [attempted, Act.caught, bind_assoc, Act.bind_ok (Act.observe_apply _ ec s)]
  rcases body.valueAs ty ec s with ⟨(exn | d | _) | v, t⟩ <;> rfl

/-- A computation with a finally body. -/
def finishing (x : EvalM Value) (final : Option Evaluated) : EvalM Value := do
  let outcome ← Act.caught x
  if let some f := final then
    let _ ← f.value
  match outcome with
  | .ok v => return v
  | .error exn => Act.throwing exn

theorem finishing_none (x : EvalM Value) (ec : EvalContext) (s : Activation × World) :
    finishing x none ec s = x ec s := by
  rw [finishing, Act.caught, bind_assoc, Act.bind_ok (Act.observe_apply x ec s)]
  rcases x ec s with ⟨(exn | d | _) | v, t⟩ <;> rfl

theorem finishing_some (x : EvalM Value) (f : Evaluated) (ec : EvalContext) (s : Activation × World) :
    finishing x (some f) ec s = match x ec s with
      | (.ok v, t) => (f.value >>= fun _ => pure v) ec t
      | (.error (.thrown exn), t) => (f.value >>= fun _ => Act.throwing exn) ec t
      | r => r := by
  rw [finishing, Act.caught, bind_assoc, Act.bind_ok (Act.observe_apply x ec s)]
  rcases x ec s with ⟨(exn | d | _) | v, t⟩ <;> rfl

theorem caught_attempted (ty : Ty) (body : Evaluated) (handlers : List (CatchClause Evaluated)) :
    Act.caught (attempted ty body handlers) = (do
      match ← Act.caught (body.valueAs ty) with
      | .ok v => pure (.ok v)
      | .error exn => Act.caught (handle ty exn handlers)) := by
  funext ec s
  rw [Act.caught, Act.bind_ok (Act.observe_apply _ ec s), attempted_apply, Act.caught, bind_assoc,
    Act.bind_ok (Act.observe_apply _ ec s)]
  rcases body.valueAs ty ec s with ⟨(exn | d | _) | v, t⟩ <;> rfl

theorem guarded_eq (ty : Ty) (body : Evaluated) (handlers : List (CatchClause Evaluated)) (final : Option Evaluated) :
    guarded ty body handlers final =
      finishing (attempted ty body handlers) final >>= fun v => pure (unlessVoid ty v) := by
  have hguarded : guarded ty body handlers final = (do
      let outcome ← Act.caught (attempted ty body handlers)
      if let some f := final then
        let _ ← f.value
      match outcome with
      | .ok v => return unlessVoid ty v
      | .error exn => Act.throwing exn) := by
    rw [guarded, caught_attempted, bind_assoc]
    refine bind_congr fun x => ?_
    cases x <;> rfl
  rw [hguarded, finishing, bind_assoc]
  refine bind_congr fun outcome => ?_
  cases final with
  | none => cases outcome <;> rfl
  | some f =>
    rw [bind_assoc]
    refine bind_congr fun _ => ?_
    cases outcome <;> rfl

end Eval

/-! ## Parts of a region -/

namespace Same

open EmitM Bridge

variable {S : Setting} {ctx : EmitContext} {u : CodeUnit}
  {r : Emit.Region} {b b₀ b₁ b' : Builder} {D D' : Nat → Option Nat} {ls : List Nat} {handling : List Value}
  {f f₁ f' : Frame} {w w₁ w' : World} {vars vars₁ vars' : Activation} {base : List Value} {n m done : Nat} {v : Value}
  {res : Except Stop Value × Activation × World}

variable (S) in
/-- A part of a region has come to the region's end, with its value in the region's local. -/
structure Lands (ctx : EmitContext) (r : Emit.Region) (u : CodeUnit) (b : Builder) (n done : Nat)
    (handling : List Value)
    (f f' : Frame) (w w' : World) (vars' : Activation) (base : List Value) (v : Value) : Prop where
  after : (same S).After ctx n () () handling f f' vars'
  advances : u.Advances ⟨S.lib, S.inv, none⟩ ⟨b.pc, f, w⟩ ⟨done, f', w'⟩
  stack : f'.stack = base
  pending : f'.pending = f.pending
  result : ∀ i ∈ r.result, f'.locals[i]? = some v ∧ v.Portable S.F

variable (S) in
/-- A part of a region comes to the region's end with its value, which is known to be reached then, or stops with
an exception that no handler so far takes. -/
def Comes (ctx : EmitContext) (r : Emit.Region) (reached : Prop) (u : CodeUnit) (b b' : Builder) (n done : Nat)
    (handling : List Value) (f : Frame) (w : World) (base : List Value) : Except Stop Value × Activation × World → Prop
  | (.ok v, vars', w') => S.I w' ∧ reached ∧ ∃ f', Lands S ctx r u b n done handling f f' w w' vars' base v
  | (.error stop, vars', w') => S.I w' ∧ (∀ v, stop = .thrown v → v.Portable S.F ∧ v ≠ .null) ∧
      ∃ f' pc, (same S).Fails ctx u b b' () () handling f f' w w' vars' base pc stop

theorem outcome_iff {α : Type} {Post : (same S).Stage → α → List Value → Prop}
    {r : Except Stop α × Activation × World} : (same S).Outcome ctx n u b b' () handling f w base Post r ↔
      (same S).Ends ctx n u b b' () handling f w base Post r :=
  ⟨fun h => h.resolve_left not_excused, .inr⟩

/-- What a part of a region comes to is the same of the code with what is written after it. -/
theorem Comes.extend (h : Comes S ctx r (r.Reached b₁) u b b₁ n done handling f w base res) (ht : b₁.Tracks D)
    (hg : ∀ D, b₁.Tracks D → ∃ ls D', b'.Tracks D' ∧ Builder.Grows ls b₁ D b' D') :
    Comes S ctx r (r.Reached b') u b b' n done handling f w base res := by
  obtain ⟨ls, D', -, hgrows⟩ := hg D ht
  rcases res with ⟨stop | v, vars', w'⟩
  · obtain ⟨hw, hthrown, f', pc, hfail⟩ := h
    exact ⟨hw, hthrown, f', pc, hfail.extend hgrows⟩
  · obtain ⟨hw, hreached, hlands⟩ := h
    exact ⟨hw, hreached.mono hg, hlands⟩

/-- A part of a region that control comes to after a run. -/
theorem Comes.after_run {reached : Prop} (h : Comes S ctx r reached u b₁ b' m done handling f₁ w₁ base res)
    (h₁ : Arrived (same S) ctx u b b₁ () () handling f f₁ w w₁ vars₁) (hn : n ≤ b.locals.size) (hm : n ≤ m) :
    Comes S ctx r reached u b b' n done handling f w base res := by
  rcases res with ⟨stop | v, vars', w'⟩
  · obtain ⟨hw, hthrown, f', pc, hfail⟩ := h
    exact ⟨hw, hthrown, f', pc, hfail.after_run h₁⟩
  · obtain ⟨hw, hreached, f', hlands⟩ := h
    refine ⟨hw, hreached, f', ⟨?_, h₁.advances.trans hlands.advances, hlands.stack, hlands.pending.trans h₁.pending,
      hlands.result⟩⟩
    exact ⟨le_rfl, hlands.after.corresponds, (h₁.after.keeps.mono hn).trans hlands.after.keeps hm⟩

/-- Handlers for what lies behind take no exception of a part of a region. -/
theorem Comes.addHandlers {reached : Prop} {es : List Handler}
    (h : Comes S ctx r reached u b b₁ n done handling f w base res) (hes : ∀ e ∈ es, e.stop ≤ b.pc) :
    Comes S ctx r reached u b (es.foldl Builder.addHandler b₁) n done handling f w base res := by
  rcases res with ⟨stop | v, vars', w'⟩
  · obtain ⟨hw, hthrown, f', pc, hfail⟩ := h
    refine ⟨hw, hthrown, f', pc, hfail.addHandlers fun v _ e he => Handler.accepts_of_not_covers (fun hcov => ?_) v⟩
    have hlo := hfail.stops.pc_le
    have hhi := hcov.2
    have := hes e he
    simp only at hlo
    omega
  · exact h

/-- The end of a part of a region: its value goes into the region's local, and control to the region's end. -/
theorem Comes.of_ends {c c₁ : Builder} {E D₁ : Nat → Option Nat}
    (hends : (same S).Ends ctx r.usage.count u b c () handling f w base
      (fun κ v => (same S).Holds κ (r.usage.leaves r.ty v)) res)
    (hleaves : Emit.Leaves r ctx c E c₁ D₁ b' D') (hfit : ctx.Fits b₀) (hle : b₀.locals.size ≤ b.locals.size)
    (hres : r.result.toList.length = r.usage.count)
    (hlocal : ∀ i ∈ r.result, b₀.locals.size ≤ i ∧ i < u.locals.size) (hsize : f.locals.size = u.locals.size)
    (hlink : b'.Links u) (hdone : b'.pc ≤ done)
    (hjump : ∀ pc, b'.Written pc (.branch .always r.after) → u.instrs[pc]? = some (.branch .always done)) :
    Comes S ctx r (r.Reached b') u b b' b₀.locals.size done handling f w base res := by
  have hpc : b'.pc = c₁.pc + 1 := hleaves.pc
  have hdraft : b'.Written c₁.pc (.branch .always r.after) := hleaves.written
  have hlink₁ : c₁.Links u := hleaves.awaits.links hlink hleaves.grows
  rcases res with ⟨stop | v, vars', wE'⟩
  · obtain ⟨⟨⟩, f', w', pc, stop', hfail, rfl, rfl, hw, hthrown⟩ := hends
    exact ⟨hw, hthrown, f', pc, (hfail.extend hleaves.stored).extend hleaves.grows⟩
  · obtain ⟨⟨⟩, f₂, w₂, vs, harr, hlen, hholds, rfl, hw⟩ := hends
    obtain ⟨rfl, hportable⟩ := holds_iff.1 hholds
    have hsize₂ : f₂.locals.size = u.locals.size := harr.after.keeps.locals.trans hsize
    have hvs : ∀ x ∈ (r.usage.leaves r.ty v).map Prod.snd, x = v := by
      cases r.usage <;> simp [Usage.leaves]
    obtain ⟨f₃, hadv, henters, hst, hlocals, hflow⟩ := Emit.storeResult_runs ⟨S.lib, S.inv, none⟩ w₂ hleaves.store
      hlink₁ hres
      (fun i hi => ⟨(hlocal i hi).1, by rw [hsize₂]; exact (hlocal i hi).2⟩) hlen hvs harr.stack
    obtain ⟨d, hd⟩ := Option.isSome_iff_exists.1 (hflow (by rw [harr.depth]; rfl))
    have hreached : r.Reached b' := by
      refine ⟨D', c₁.pc, d, hleaves.between.tracks, by omega, ?_, hdraft⟩
      rcases hleaves.grows.reached c₁.pc d (.inr ⟨rfl, hd⟩) with ⟨-, hD⟩ | ⟨hpc', -⟩
      · exact hD
      · omega
    refine ⟨hw, hreached, f₃, ⟨⟨le_rfl, ?_, ?_⟩, ?_, hst, henters.pending.trans harr.pending,
      fun i hi => ⟨hlocals i hi, ?_⟩⟩⟩
    · exact harr.after.corresponds.of_enters hfit henters
    · exact (harr.after.keeps.mono hle).trans (.of_enters henters) le_rfl
    · have hgo : u.Advances ⟨S.lib, S.inv, none⟩ ⟨c₁.pc, f₃, w₂⟩ ⟨done, f₃, w₂⟩ :=
        (CodeUnit.advance_always (hjump _ hdraft) (by omega)).advances
      exact (harr.advances.trans hadv).trans hgo
    · cases hu : r.usage with
      | discard =>
        rw [hu] at hres
        rw [Option.mem_def.1 hi] at hres
        cases hres
      | value => exact hportable (r.ty, v) (by simp [hu, Usage.leaves])

/-! ## Clauses -/

variable (S) in
/-- The machine stands at the start of a handler for an exception. -/
structure Caught (ctx : EmitContext) (r : Emit.Region) (u : CodeUnit) (handling : List Value) (f : Frame)
    (vars : Activation) (w : World) (base : List Value) (exn : Value) : Prop where
  stack : f.stack = exn :: base
  depth : base.length = r.stackDepth
  nesting : f.pending.length = r.finallyDepth
  locals : f.locals.size = u.locals.size
  corresponds : (same S).Corresponds ctx () handling f vars
  world : S.I w
  thrown : exn.Portable S.F ∧ exn ≠ .null

variable (S) in
/-- The code of a clause simulates the clause's body, in the scope of the clause's variable. -/
def Clause (ctx : EmitContext) (ty : Ty) (usage : Usage) (c : CatchClause Tree) : Prop :=
  ∀ scope hidden, scope.map Prod.fst = c.var.toList → (same S).Code (ctx.enter scope [hidden]) [] usage.count
    (Emitted.valueAs (.of Tree.emission c.body) ty usage) (Evaluated.valueAs (.of S.meaning c.body) ty)
    (usage.leaves ty)

/-- What the evaluator does for an exception that a clause takes. -/
def handled (f : Tree → Meaning) (ty : Ty) (exn : Value) (c : CatchClause Tree) : EvalM Value :=
  EvalM.catching exn (c.var.toList.map (·, exn)) (Evaluated.valueAs (.of f c.body) ty)

theorem emits_clauses {ty : Ty} {usage : Usage} {cs : List (CatchClause Tree)}
    (h : ∀ c ∈ cs, (c.map (.of Tree.emission)).Emits ctx ty usage) :
    ∀ c ∈ cs.map (CatchClause.map (.of Tree.emission)), c.Emits ctx ty usage :=
  List.forall_mem_map.2 h

theorem clause_comes {c : CatchClause Tree} {e : Handler} (hc : Clause S ctx r.ty r.usage c)
    (hemits : (c.map (.of Tree.emission)).Emits ctx r.ty r.usage) (hfit : ctx.Fits b₀)
    (hle : b₀.locals.size ≤ b.locals.size) (hfit' : ctx.Fits b) (hpast : b.Past)
    (hres : r.result.toList.length = r.usage.count) (hlocal : ∀ i ∈ r.result, b₀.locals.size ≤ i ∧ i < u.locals.size)
    (hb : r.Between b D) (hnest : b.finallyNesting = r.finallyDepth)
    (hcode : Emit.clause r (c.map (.of Tree.emission)) ctx b = .ok (e, b')) (hlink : b'.Links u) (hdone : b'.pc ≤ done)
    (hjump : ∀ pc, b'.Written pc (.branch .always r.after) → u.instrs[pc]? = some (.branch .always done)) :
    e = ⟨r.start, r.stop, .catches c.test, b.pc, r.stackDepth, r.finallyDepth⟩ ∧
      ∀ {handling f vars w base exn}, Caught S ctx r u handling f vars w base exn →
        Comes S ctx r (r.Reached b') u b b' b₀.locals.size done handling f w base
          (handled S.meaning r.ty exn c ((same S).eval handling) (vars, w)) := by
  obtain ⟨hidden, scope, b₁, b₂, b₃, b₄, D₂, D₃, D₄, D', hparts⟩ := Emit.clause_inv hres hemits hb hcode
  refine ⟨hparts.handler, fun {handling f vars w base exn} hcaught => ?_⟩
  have hleaves := hparts.leaves
  have hlink₃ : b₃.Links u := (hleaves.awaits.links hlink hleaves.grows).mono hleaves.stored (by simp)
  have hlink₂ : b₂.Links u := hlink₃.mono hparts.adds.grows (by simp)
  obtain ⟨hle₂, hflow, f₁, hadv, hcatches⟩ :=
    Emit.catching_runs ⟨S.lib, S.inv, none⟩ w hparts.catching hlink₂ hcaught.locals hcaught.stack
  have hgrows₁ : Builder.Grows [b.labels.size] b D b₁ D := Builder.Grows.newLabel.trans hparts.entry.grows
  have hgrows : Builder.Grows [b.labels.size] b D b₂ D₂ := hgrows₁.trans (hparts.caught.grows.mono (by simp))
  have hle₁ : b.locals.size ≤ b₁.locals.size := by simpa using hgrows₁.locals.length_le
  have hpc : b₁.pc = b.pc := hparts.entry.pc
  -- the state in the scope of the clause's variable
  have hcorr : (same S).Corresponds (ctx.enter scope [hidden]) () ([exn] ++ handling) f₁
      (vars ++ (c.var.toList.map (·, exn)).toArray) := by
    refine hcaught.corresponds.enter (hfit'.mono hgrows₁) hcatches.enters ?_
      (.cons ⟨hcatches.kept, hcaught.thrown⟩ .nil)
    rw [← show scope.map Prod.fst = c.var.toList from hcatches.vars, List.map_map, List.forall₂_map_right_iff,
      List.forall₂_same]
    exact fun v hv => ⟨rfl, exn, hcatches.bound v hv, rfl, hcaught.thrown.1⟩
  have hdepth : b₂.depth = some f₁.stack.length := by
    refine hparts.caught.depth (hflow (by rw [hparts.entry.depth]; rfl)) hparts.entry.depth ?_
    rw [hcatches.stack, hcaught.depth]
  have hready : (same S).Ready (ctx.enter scope [hidden]) u b₂ () ([exn] ++ handling) f₁
      (vars ++ (c.var.toList.map (·, exn)).toArray) w w := by
    refine ⟨hdepth, ?_, hcatches.enters.size.trans hcaught.locals, hcorr, rfl, hcaught.world⟩
    rw [hcatches.enters.pending, hcaught.nesting, hparts.caught.nesting, hparts.entry.nesting, ← hnest]
    rfl
  have hstack : f₁.stack = [] ++ base := hcatches.stack
  have hout := (hc scope hidden hcatches.vars).runs hparts.caught.tracks
    ((hfit'.mono hgrows₁).enter hcatches.fresh hle₂) (hpast.mono hgrows) hparts.body hlink₃ hready hstack rfl .nil
  have hends := outcome_iff.1 (Outcome.leave hout hadv hcatches.enters hle₂ (fun v hv => (hcatches.fresh.inside v hv).1)
    hcaught.corresponds.vars.length_eq.symm rfl)
  have harrived : Arrived (same S) ctx u b b₁ () () handling f f w w vars :=
    ⟨hcaught.corresponds.after le_rfl rfl rfl, by rw [hpc]; exact .refl, rfl, hle₁⟩
  rw [handled, EvalM.catching, EvalM.within_apply]
  exact (Comes.of_ends hends hleaves hfit (hle.trans hle₁) hres hlocal hcaught.locals hlink hdone hjump).after_run
    harrived hle le_rfl

variable (S) in
/-- A handler of the region runs a clause. -/
def Serves (ctx : EmitContext) (r : Emit.Region) (u : CodeUnit) (b₀ b' : Builder) (done : Nat) (c : CatchClause Tree)
    (e : Handler) : Prop :=
  ∃ b : Builder, e = ⟨r.start, r.stop, .catches c.test, b.pc, r.stackDepth, r.finallyDepth⟩ ∧ r.stop ≤ b.pc ∧
    b₀.locals.size ≤ b.locals.size ∧ ∀ {handling f vars w base exn}, Caught S ctx r u handling f vars w base exn →
      Comes S ctx r (r.Reached b') u b b' b₀.locals.size done handling f w base
        (handled S.meaning r.ty exn c ((same S).eval handling) (vars, w))

theorem clauses_come (hfit : ctx.Fits b₀) (hres : r.result.toList.length = r.usage.count)
    (hlocal : ∀ i ∈ r.result, b₀.locals.size ≤ i ∧ i < u.locals.size) (hlink : b'.Links u) (hdone : b'.pc ≤ done)
    (hjump : ∀ pc, b'.Written pc (.branch .always r.after) → u.instrs[pc]? = some (.branch .always done)) :
    ∀ (cs : List (CatchClause Tree)) {b : Builder} {D : Nat → Option Nat} {es : List Handler},
      (∀ c ∈ cs, Clause S ctx r.ty r.usage c) →
      (∀ c ∈ cs, (c.map (.of Tree.emission)).Emits ctx r.ty r.usage) →
      b₀.locals.size ≤ b.locals.size → ctx.Fits b → b.Past → r.Between b D → b.finallyNesting = r.finallyDepth →
      r.stop ≤ b.pc → (cs.map (CatchClause.map (.of Tree.emission))).mapM (Emit.clause r) ctx b = .ok (es, b') →
      List.Forall₂ (Serves S ctx r u b₀ b' done) cs es
  | [], b, D, es, _, _, _, _, _, _, _, _, h => by
    cases h
    exact .nil
  | c :: cs, b, D, es, hc, hemits, hle, hfit', hpast, hb, hnest, hstop, h => by
    rw [List.map_cons, List.mapM_cons] at h
    obtain ⟨e, b₁, hclause, hrest⟩ := EmitM.bind_eq_ok h
    obtain ⟨es', b₂, hclauses, hpure⟩ := EmitM.bind_eq_ok hrest
    cases hpure
    obtain ⟨D₁, hb₁, hg₁, hn₁, -⟩ := (Emit.yields_clause hres (hemits c List.mem_cons_self) hb).result hclause
    have hemits' := emits_clauses (List.forall_mem_cons.1 hemits).2
    -- the code of the clauses that follow
    have hlater : ∀ D, b₁.Tracks D → ∃ D', b'.Tracks D' ∧ Builder.Grows [r.after] b₁ D b' D' := by
      intro D ht
      obtain ⟨D', hb', hg', -⟩ :=
        (Emit.yields_clauses hres _ hemits' ⟨ht, hb₁.depth, hb₁.low, hb₁.awaits⟩).result hclauses
      exact ⟨D', hb'.tracks, hg'⟩
    obtain ⟨D', -, hg'⟩ := hlater D₁ hb₁.tracks
    have hle₁ : b.locals.size ≤ b₁.locals.size := by simpa using hg₁.locals.length_le
    obtain ⟨he, hcomes⟩ := clause_comes (hc c List.mem_cons_self) (hemits c List.mem_cons_self) hfit hle
      hfit' hpast hres hlocal hb hnest hclause (hb₁.awaits.links hlink hg') (hg'.pc_le.trans hdone)
      fun pc hpc => hjump pc (hg'.written _ _ hpc)
    refine .cons ⟨b, he, hstop, hle, fun hcaught => (hcomes hcaught).extend hb₁.tracks fun D ht => ?_⟩ ?_
    · obtain ⟨D', ht', hg'⟩ := hlater D ht
      exact ⟨_, D', ht', hg'⟩
    · exact clauses_come hfit hres hlocal hlink hdone hjump cs (fun c' h => hc c' (List.mem_cons_of_mem c h))
        (fun c' h => hemits c' (List.mem_cons_of_mem c h)) (hle.trans hle₁) (hfit'.mono hg₁) (hpast.mono hg₁) hb₁
        (hn₁.trans hnest) (hstop.trans hg₁.pc_le) hclauses

/-! ## Bodies with clauses -/

/-- An exception goes to the first handler of the region whose clause takes it, as in the evaluator. -/
theorem handle_find {cs : List (CatchClause Tree)} {es : List Handler} {pc : Nat} (ty : Ty) (exn : Value)
    (hserves : List.Forall₂ (Serves S ctx r u b₀ b' done) cs es) (hfilter : ∀ c ∈ cs, c.filter = none)
    (hstart : r.start ≤ pc) (hstop : pc < r.stop) :
    (∃ c e us vs, Serves S ctx r u b₀ b' done c e ∧ es = us ++ e :: vs ∧ e.accepts pc exn = true ∧
      (∀ e' ∈ us, e'.accepts pc exn = false) ∧
      Eval.handle ty exn (cs.map (CatchClause.map (.of S.meaning))) = handled S.meaning ty exn c) ∨
    (∀ e ∈ es, e.accepts pc exn = false) ∧
      Eval.handle ty exn (cs.map (CatchClause.map (.of S.meaning))) = Act.throwing exn := by
  induction hserves with
  | nil => exact .inr ⟨by simp, rfl⟩
  | @cons c e cs es hce _ ih =>
    have hc : (c.map (Tree.Child.of S.meaning)).filter = none := by
      rw [CatchClause.map, hfilter c List.mem_cons_self]
      rfl
    have haccepts : e.accepts pc exn = exn.hasType c.test := by
      obtain ⟨b, rfl, -⟩ := hce
      simp [Handler.accepts, Handler.Covers, hstart, hstop]
    have hhandle : Eval.handle ty exn ((c :: cs).map (CatchClause.map (.of S.meaning))) =
        if exn.hasType c.test then handled S.meaning ty exn c
        else Eval.handle ty exn (cs.map (CatchClause.map (.of S.meaning))) := Eval.handle_cons ty exn hc _
    rw [hhandle]
    cases htest : exn.hasType c.test with
    | true => exact .inl ⟨c, e, [], es, hce, rfl, haccepts.trans htest, by simp, rfl⟩
    | false =>
      have hhere := haccepts.trans htest
      rcases ih fun c' h => hfilter c' (List.mem_cons_of_mem c h) with ⟨c', e', us, vs, hs, rfl, ha, hus, hh⟩
        | ⟨hnone, hh⟩
      · exact .inl ⟨c', e', e :: us, vs, hs, rfl, ha, List.forall_mem_cons.2 ⟨hhere, hus⟩, hh⟩
      · exact .inr ⟨List.forall_mem_cons.2 ⟨hhere, hnone⟩, hh⟩

/-- The frame at the start of a clause that takes an exception of the body. -/
theorem caught_of_fails {b₁ : Builder} {c : CatchClause Tree} {exn : Value} {pc target : Nat}
    (hfail : (same S).Fails ctx u b b₁ () () handling f f' w w' vars' base pc (.thrown exn)) (hw : S.I w')
    (hexn : exn.Portable S.F ∧ exn ≠ .null) (hbase : base.length = r.stackDepth)
    (hpending : f.pending.length = r.finallyDepth) (hsize : f.locals.size = u.locals.size) :
    let g := f'.unwound ⟨r.start, r.stop, .catches c.test, target, r.stackDepth, r.finallyDepth⟩ exn
    Caught S ctx r u handling g vars' w' base exn ∧ g.pending = f.pending ∧
      (same S).After ctx b.locals.size () () handling f g vars' := by
  have hpend : Frame.bottom f'.pending r.finallyDepth = f.pending := by
    rw [← hpending]
    exact Frame.bottom_of_suffix hfail.pending
  refine ⟨⟨?_, hbase, ?_, hfail.after.keeps.locals.trans hsize, hfail.after.corresponds.congr rfl rfl, hw, hexn⟩,
    hpend, ?_⟩
  · show exn :: Frame.bottom f'.stack r.stackDepth = exn :: base
    rw [← hbase, Frame.bottom_of_suffix hfail.stack]
  · show (Frame.bottom f'.pending r.finallyDepth).length = _
    rw [hpend, hpending]
  · exact hfail.after.trans (hfail.after.corresponds.after le_rfl rfl rfl) le_rfl

theorem attempted_comes {body : Tree} {cs : List (CatchClause Tree)} {es : List Handler} {b₄ b₅ : Builder}
    {D₄ : Nat → Option Nat}
    (hbody : Comes S ctx r (r.Reached b₄) u b₀ b₄ b₀.locals.size done handling f w base
      (Evaluated.valueAs (.of S.meaning body) r.ty ((same S).eval handling) (vars, w)))
    (hserves : List.Forall₂ (Serves S ctx r u b₀ b₅ done) cs es) (hfilter : ∀ c ∈ cs, c.filter = none)
    (hstart : r.start = b₀.pc) (hstop : r.stop = b₄.pc) (ht₄ : b₄.Tracks D₄)
    (hlater : ∀ D, b₄.Tracks D → ∃ ls D', b₅.Tracks D' ∧ Builder.Grows ls b₄ D b₅ D')
    (hbase : base.length = r.stackDepth)
    (hpending : f.pending.length = r.finallyDepth) (hsize : f.locals.size = u.locals.size)
    (hlink : (es.foldl Builder.addHandler b₅).Links u) :
    Comes S ctx r (r.Reached b₅) u b₀ (es.foldl Builder.addHandler b₅) b₀.locals.size done handling f w base
      (Eval.attempted r.ty (.of S.meaning body) (cs.map (CatchClause.map (.of S.meaning)))
        ((same S).eval handling) (vars, w)) := by
  rw [Eval.attempted_apply]
  have hbody₅ := hbody.extend ht₄ hlater
  rcases hres : Evaluated.valueAs (.of S.meaning body) r.ty ((same S).eval handling) (vars, w) with
    ⟨stop | v, vars₁, w₁⟩ <;> rw [hres] at hbody hbody₅
  swap
  · exact hbody₅
  obtain ⟨hw₁, hthrown, f₁, pc, hfail⟩ := hbody
  obtain ⟨ls, D₅, -, hg⟩ := hlater D₄ ht₄
  have hfail₅ := hfail.extend hg
  cases stop with
  | defect d | exhausted => exact ⟨hw₁, hthrown, f₁, pc, hfail₅.addHandlers (by rintro v ⟨⟩)⟩
  | thrown exn =>
    have hlo : r.start ≤ pc := by
      rw [hstart]
      exact hfail.stops.pc_le
    have hhi : pc < r.stop := by
      rw [hstop]
      exact hfail.inside
    rcases handle_find r.ty exn hserves hfilter hlo hhi with ⟨c, e, us, vs, hserve, hes, haccepts, hus, hhandle⟩ |
      ⟨hnone, hhandle⟩
    · -- the exception goes to the clause, whose code runs on from there
      have hstops : ∀ e' ∈ es, e'.stop = r.stop := by
        intro e' he'
        obtain ⟨c', -, b', rfl, -⟩ := exists_of_mem_right hserves he'
        rfl
      obtain ⟨bc, rfl, htarget, hle, hcomes⟩ := hserve
      obtain ⟨hcaught, hpend, hafter⟩ := caught_of_fails (c := c) hfail₅ hw₁ (hthrown exn rfl) hbase hpending hsize
      have hfind : (u.handlers.find? fun e => e.accepts pc exn) =
          some ⟨r.start, r.stop, .catches c.test, bc.pc, r.stackDepth, r.finallyDepth⟩ := by
        obtain ⟨rest, hrest⟩ := hlink.handlers
        rw [Builder.addHandlers_eq, Array.toList_append, List.toList_toArray, hes] at hrest
        have hsplit : u.handlers = (b₅.handlers.toList ++ us) ++ ⟨r.start, r.stop, .catches c.test, bc.pc, r.stackDepth,
            r.finallyDepth⟩ :: (vs ++ rest) := by simp [← hrest]
        refine Handler.find?_eq hsplit haccepts fun e' he' => ?_
        rcases List.mem_append.1 he' with he' | he'
        · exact hfail₅.unhandled exn rfl e' (Array.mem_toList_iff.1 he')
        · exact hus e' he'
      have hadv := hfail.stops.caught hfind (hhi.trans_le htarget)
      simp only [hhandle]
      refine Comes.after_run (m := b₀.locals.size) ?_ ⟨hafter, hadv, hpend, hle⟩ le_rfl le_rfl
      exact (hcomes hcaught).addHandlers fun e' he' => by rw [hstops e' he']; exact htarget
    · simp only [hhandle]
      refine ⟨hw₁, hthrown, f₁, pc, hfail₅.addHandlers ?_⟩
      rintro v ⟨⟩
      exact hnone

/-! ## Finally bodies -/

/-- Without a finally body, control goes on at the region's end. -/
theorem Comes.close {b₅ b₆ : Builder} (h : Comes S ctx r (r.Reached b₅) u b₀ b₆ n b₆.pc handling f w base res)
    (hb : r.Between b₆ D) (hawait : r.Awaits b₅) (hlabels : b₆.labels = b₅.labels)
    (hcode : EmitM.mark r.after ctx b₆ = .ok ((), b')) :
    Comes S ctx r (b'.depth = some r.stackDepth) u b₀ b' n b'.pc handling f w base res := by
  obtain ⟨x, hx, hxall⟩ := hb.awaits
  obtain ⟨b'', hmark', hmark⟩ := hb.tracks.mark hx rfl (by simp [hb.depth])
  obtain rfl : b'' = b' := by
    rw [EmitM.build_inv hcode] at hmark'
    exact (Except.ok.inj hmark').symm
  rcases res with ⟨stop | v, vars', w'⟩
  · obtain ⟨hw, hthrown, f', pc, hfail⟩ := h
    exact ⟨hw, hthrown, f', pc, hfail.extend hmark.grows⟩
  · obtain ⟨hw, hreached, f', hlands⟩ := h
    refine ⟨hw, ?_, f', by rw [hmark.pc]; exact hlands⟩
    have hlabel := hreached.depth hawait
    rw [← hlabels, hx] at hlabel
    cases hlabel
    rw [hmark.depth, hb.depth]
    rfl

section

variable {t : Tree} {b₁ b₂ b₃ b₄ b₆ : Builder} {D₀ D₂ D₃ D₄ : Nat → Option Nat}

variable (S) in
/-- The machine stands at the start of the finally body, with what is to be thrown after it. -/
structure Finishes (ctx : EmitContext) (u : CodeUnit) (b₀ b₂ : Builder) (handling : List Value) (f g : Frame)
    (w w₁ : World) (vars₁ : Activation) (base : List Value) (p : Option Value) : Prop where
  after : (same S).After ctx b₀.locals.size () () handling f g vars₁
  advances : u.Advances ⟨S.lib, S.inv, none⟩ ⟨b₀.pc, f, w⟩ ⟨b₂.pc, g, w₁⟩
  stack : g.stack = base
  pending : g.pending = p :: f.pending
  world : S.I w₁

/-- The entry of the finally body. -/
def finalEntry (r : Emit.Region) (b₁ b₂ : Builder) : Handler :=
  ⟨r.start, b₁.pc, .finally, b₂.pc, r.stackDepth, r.finallyDepth⟩

variable (hparts : Emit.FinalCode r ctx (.of Tree.emission t) b₆ D b' b₁ b₂ b₃ b₄ D₂ D₃ D₄)

include hparts

/-- The finally body comes to its end, or stops with an exception that no handler so far takes. -/
theorem finally_ends {p : Option Value} {g : Frame}
    (ht : (same S).Used ctx .discard t) (hfit : ctx.Fits b₀) (hpast : b₀.Past)
    (hg : Builder.Grows ls b₀ D₀ b₆ D) (hlink : b₄.Links u) (hbase : base.length = r.stackDepth)
    (hpending : f.pending.length = b₆.finallyNesting) (hsize : f.locals.size = u.locals.size)
    (hfin : Finishes S ctx u b₀ b₂ handling f g w w₁ vars₁ base p) :
    (same S).Ends ctx 0 u b₂ b₃ () handling g w₁ base (fun κ _ => (same S).Holds κ [])
      (Evaluated.value (.of S.meaning t) ((same S).eval handling) (vars₁, w₁)) := by
  obtain ⟨ht₂, hg₂, hd₂, hn₂⟩ := hparts.entered
  have hgrows : Builder.Grows (r.after :: ls) b₀ D₀ b₂ D₂ :=
    ((hg.mono (by simp)).trans (hparts.entry.grows.mono (by simp))).trans (hg₂.mono (by simp))
  have hlink₃ : b₃.Links u := hlink.mono hparts.left.2.1 (by simp)
  have hready : (same S).Ready ctx u b₂ () handling g vars₁ w₁ w₁ := by
    refine ⟨?_, ?_, hfin.after.keeps.locals.trans hsize, hfin.after.corresponds, rfl, hfin.world⟩
    · rw [hd₂, hfin.stack, hbase]
    · rw [hfin.pending, List.length_cons, hpending, hn₂]
  have hstack : g.stack = [] ++ base := hfin.stack
  exact outcome_iff.1 (ht.runs ht₂ (hfit.mono hgrows) (hpast.mono hgrows) hparts.body hlink₃ hready hstack rfl .nil)

/-- What the finally body has not handled is not handled by the region. -/
theorem Finishes.fails {p : Option Value} {g : Frame} {pc : Nat} {stop : Stop}
    (hle : b₀.locals.size ≤ b₂.locals.size)
    (hfin : Finishes S ctx u b₀ b₂ handling f g w w₁ vars₁ base p)
    (hfail : (same S).Fails ctx u b₂ b₄ () () handling g f' w₁ w' vars' base pc stop) :
    (same S).Fails ctx u b₀ b' () () handling f f' w w' vars' base pc stop := by
  have hnone : ∀ v, stop = .thrown v → ∀ e ∈ [finalEntry r b₁ b₂], e.accepts pc v = false := by
    intro v _ e he
    obtain rfl := List.mem_singleton.1 he
    refine Handler.accepts_of_not_covers (fun hcov => ?_) v
    have hlo := hfail.stops.pc_le
    have hhi : pc < b₁.pc := hcov.2
    have := hparts.entered.2.1.pc_le
    simp only at hlo
    omega
  have hfail' := hfail.addHandlers hnone
  rw [hparts.handlers]
  exact ⟨hfin.after.trans hfail.after hle, hfail.stops.of_advances hfin.advances, hfail'.inside, hfail'.stack,
    (by rw [hfin.pending]; exact List.suffix_cons p f.pending : f.pending <:+ g.pending).trans hfail'.pending,
    hfail'.unhandled⟩

/-- The finally body is entered from the region's end. -/
theorem Finishes.of_lands {g : Frame} (hlink : b₂.Links u) (hw : S.I w₁)
    (h : Lands S ctx r u b₀ b₀.locals.size b₆.pc handling f g w w₁ vars₁ base v) :
    Finishes S ctx u b₀ b₂ handling f { g with pending := none :: g.pending } w w₁ vars₁ base none where
  after := h.after.trans (h.after.corresponds.after le_rfl rfl rfl) le_rfl
  advances := by
    have henter := Emit.enterFinally_runs (f := g) ⟨S.lib, S.inv, none⟩ w₁ hparts.enter hlink
    rw [show b₁.pc = b₆.pc from hparts.entry.pc] at henter
    exact h.advances.trans henter
  stack := h.stack
  pending := by rw [h.pending]
  world := hw

/-- The finally body is entered for an exception that no clause takes. -/
theorem Finishes.of_fails {exn : Value} {pc : Nat} (hlink : b'.Links u)
    (hstart : r.start = b₀.pc) (hbase : base.length = r.stackDepth) (hpending : f.pending.length = r.finallyDepth)
    (hw : S.I w₁) (h : (same S).Fails ctx u b₀ b₆ () () handling f f₁ w w₁ vars₁ base pc (.thrown exn)) :
    Finishes S ctx u b₀ b₂ handling f (f₁.unwound (finalEntry r b₁ b₂) exn) w w₁ vars₁ base (some exn) := by
  have hpc₁ : b₁.pc = b₆.pc := hparts.entry.pc
  have hle₂ := hparts.entered.2.1.pc_le
  have hinside := h.inside
  have hfind : (u.handlers.find? fun e => e.accepts pc exn) = some (finalEntry r b₁ b₂) := by
    obtain ⟨rest, hrest⟩ := hlink.handlers
    rw [hparts.handlers] at hrest
    have hsplit : u.handlers = b₄.handlers.toList ++ finalEntry r b₁ b₂ :: rest := by
      simp [← hrest, Builder.addHandler, finalEntry]
    refine Handler.find?_eq hsplit ?_ fun e he => ?_
    · have hcov : (finalEntry r b₁ b₂).Covers pc := by
        refine ⟨?_, by simp only [finalEntry]; omega⟩
        rw [finalEntry, hstart]
        exact h.stops.pc_le
      rw [Handler.accepts, decide_eq_true hcov]
      rfl
    · -- handlers of the finally body lie behind the exception
      have hgrows : Builder.Grows [r.after] b₆ D b₄ D₄ :=
        ((hparts.entry.grows.trans (hparts.entered.2.1.mono (by simp))).trans (hparts.adds.grows.mono (by simp))).trans
          (hparts.left.2.1.mono (by simp))
      rcases hgrows.regions e (Array.mem_toList_iff.1 he) with he | ⟨hlo, -⟩
      · exact h.unhandled exn rfl e he
      · exact Handler.accepts_of_not_covers (fun hcov => by have := hcov.1; omega) exn
  have hadv := h.stops.caught hfind (show pc < b₂.pc by omega)
  refine ⟨h.after.trans (h.after.corresponds.after le_rfl rfl rfl) le_rfl, hadv, ?_, ?_, hw⟩
  · show Frame.bottom f₁.stack r.stackDepth = base
    rw [← hbase]
    exact Frame.bottom_of_suffix h.stack
  · show some exn :: Frame.bottom f₁.pending r.finallyDepth = some exn :: f.pending
    rw [← hpending, Frame.bottom_of_suffix h.pending]

/-- The exception on whose way the finally body ran goes on after it. -/
theorem Finishes.rethrows {exn : Value} {g g' : Frame} {w₂ : World} {vars₂ : Activation} {vs : List Value}
    (hle : b₀.locals.size ≤ b₂.locals.size) (hpast : b₃.Past) (hlink : b₄.Links u)
    (hfin : Finishes S ctx u b₀ b₂ handling f g w w₁ vars₁ base (some exn))
    (harr : (same S).Arrives ctx u b₂ b₃ () () handling g g' w₁ w₂ vars₂ vs base) :
    (same S).Fails ctx u b₀ b' () () handling f { g' with pending := f.pending } w w₂ vars₂ base b₃.pc
      (.thrown exn) := by
  have hwrites := EmitM.writes_emit hparts.leave
  have hstops := Emit.endFinally_stops ⟨S.lib, S.inv, none⟩ w₂ hparts.leave hlink (harr.pending.trans hfin.pending)
  refine ⟨(hfin.after.trans harr.after hle).trans (harr.after.corresponds.after le_rfl rfl rfl) le_rfl,
    (hstops.of_advances harr.advances).of_advances hfin.advances, ?_, ?_, List.suffix_rfl, fun v _ e he => ?_⟩
  · rw [hparts.handlers]
    show b₃.pc < b₄.pc
    rw [hwrites.pc]
    simp
  · rw [harr.stack]
    exact List.suffix_append vs base
  · refine Handler.accepts_of_not_covers (fun hcov => ?_) v
    have hhi := hcov.2
    rw [hparts.handlers] at he
    rcases Array.mem_push.1 he with he | rfl
    · rw [hwrites.handlers] at he
      have := hpast e he
      omega
    · have h₂ := hparts.entered.2.1.pc_le
      have h₃ := hparts.adds.grows.pc_le
      simp only at hhi
      omega

theorem finishing_comes {x : EvalM Value} {vars : Activation} {reached : Prop}
    (h : Comes S ctx r reached u b₀ b₆ b₀.locals.size b₆.pc handling f w base
      (x ((same S).eval handling) (vars, w)))
    (ht : (same S).Used ctx .discard t) (hfit : ctx.Fits b₀) (hpast : b₀.Past)
    (hg : Builder.Grows ls b₀ D₀ b₆ D) (hlink : b'.Links u) (hstart : r.start = b₀.pc)
    (hbase : base.length = r.stackDepth)
    (hpending : f.pending.length = r.finallyDepth) (hnest : b₆.finallyNesting = r.finallyDepth)
    (hsize : f.locals.size = u.locals.size)
    (hlocal : ∀ i ∈ r.result, b₀.locals.size ≤ i ∧ i < b₂.locals.size) :
    Comes S ctx r (b'.depth = some r.stackDepth) u b₀ b' b₀.locals.size b'.pc handling f w base
      (Eval.finishing x (some (.of S.meaning t)) ((same S).eval handling) (vars, w)) := by
  have hpc₁ : b₁.pc = b₆.pc := hparts.entry.pc
  have hpc' : b'.pc = b₄.pc := by
    rw [hparts.handlers]
    rfl
  have hlink₄ : b₄.Links u := by
    rw [hparts.handlers] at hlink
    exact hlink.of_addHandler
  have hlink₂ : b₂.Links u := (hlink₄.mono hparts.left.2.1 (by simp)).mono hparts.adds.grows (by simp)
  have hgrows : Builder.Grows (r.after :: ls) b₀ D₀ b₂ D₂ :=
    ((hg.mono (by simp)).trans (hparts.entry.grows.mono (by simp))).trans (hparts.entered.2.1.mono (by simp))
  have hle : b₀.locals.size ≤ b₂.locals.size := by simpa using hgrows.locals.length_le
  have hle' : b₆.pc ≤ b'.pc := by
    have h₂ := hparts.entered.2.1.pc_le
    have h₃ := hparts.adds.grows.pc_le
    have h₄ := hparts.left.2.1.pc_le
    omega
  have hends : ∀ {p g w₁ vars₁}, Finishes S ctx u b₀ b₂ handling f g w w₁ vars₁ base p → _ := fun hfin =>
    finally_ends hparts ht hfit hpast hg hlink₄ hbase (hpending.trans hnest.symm) hsize hfin
  rw [Eval.finishing_some]
  rcases hres : x ((same S).eval handling) (vars, w) with ⟨stop | v, vars₁, w₁⟩ <;> rw [hres] at h
  · obtain ⟨hw₁, hthrown, f₁, pc, hfail⟩ := h
    cases stop with
    | thrown exn =>
      -- an exception on its way: it goes on after the finally body
      have hfin := Finishes.of_fails hparts hlink hstart hbase hpending hw₁ hfail
      have hend := hends hfin
      rcases hval : Evaluated.value (.of S.meaning t) ((same S).eval handling) (vars₁, w₁) with
        ⟨stop | a, vars₂, w₂⟩ <;> rw [hval] at hend
      · obtain ⟨⟨⟩, f₂, w', pc₂, stop', hfail₂, rfl, rfl, hw₂, hthrown₂⟩ := hend
        simp only [Act.bind_error hval]
        exact ⟨hw₂, hthrown₂, f₂, pc₂, hfin.fails hparts hle (hfail₂.extend hparts.left.2.1)⟩
      · obtain ⟨⟨⟩, g, w', vs, harr, -, -, rfl, hw₂⟩ := hend
        simp only [Act.bind_ok hval, Act.throwing_apply]
        exact ⟨hw₂, hthrown, _, _, hfin.rethrows hparts hle ((hpast.mono hgrows).mono hparts.adds.grows) hlink₄ harr⟩
    | _ =>
      exact ⟨hw₁, hthrown, f₁, pc, { hfail with inside := hfail.inside.trans_le hle', unhandled := by rintro v ⟨⟩ }⟩
  · -- the region's end: the result is still in its local after the finally body
    obtain ⟨hw₁, -, f₁, hlands⟩ := h
    have hfin := Finishes.of_lands hparts hlink₂ hw₁ hlands
    have hend := hends hfin
    rcases hval : Evaluated.value (.of S.meaning t) ((same S).eval handling) (vars₁, w₁) with
      ⟨stop | a, vars₂, w₂⟩ <;> rw [hval] at hend
    · obtain ⟨⟨⟩, f₂, w', pc₂, stop', hfail₂, rfl, rfl, hw₂, hthrown₂⟩ := hend
      simp only [Act.bind_error hval]
      exact ⟨hw₂, hthrown₂, f₂, pc₂, hfin.fails hparts hle (hfail₂.extend hparts.left.2.1)⟩
    · obtain ⟨⟨⟩, g, w', vs, harr, hlen, -, rfl, hw₂⟩ := hend
      simp only [Act.bind_ok hval, Act.pure_apply]
      obtain rfl := List.length_eq_zero_iff.1 hlen
      have hstack : g.stack = base := harr.stack
      have hleave := Emit.endFinally_runs ⟨S.lib, S.inv, none⟩ w' hparts.leave hlink₄ (harr.pending.trans hfin.pending)
      refine ⟨hw₂, ?_, { g with pending := f.pending }, ⟨?_, ?_, hstack, rfl, fun i hi => ?_⟩⟩
      · rw [hparts.handlers]
        show b₄.depth = _
        rw [hparts.left.2.2, harr.depth, hstack, hbase]
      · exact (hfin.after.trans harr.after hle).trans (harr.after.corresponds.after le_rfl rfl rfl) le_rfl
      · rw [hpc']
        exact (hfin.advances.trans harr.advances).trans hleave
      · refine ⟨?_, (hlands.result i hi).2⟩
        rw [show g.locals[i]? = f₁.locals[i]? from harr.after.keeps.local hfit (hlocal i hi).1 (hlocal i hi).2]
        exact (hlands.result i hi).1

end

/-! ## Regions -/

/-- After the region's end its value is read back. -/
theorem Comes.restore {b₆ : Builder} {D₆ : Nat → Option Nat}
    (h : Comes S ctx r (b₆.depth = some r.stackDepth) u b b₆ b.locals.size b₆.pc handling f w base res)
    (hcode : EmitM.restore r.result ctx b₆ = .ok ((), b')) (hadds : Adds [] 0 r.usage.count b₆ D₆ b' D')
    (hlink : b'.Links u) (hres : r.result.toList.length = r.usage.count) (hbase : base.length = r.stackDepth) :
    (same S).Ends ctx r.usage.count u b b' () handling f w base
      (fun κ v => (same S).Holds κ (r.usage.leaves r.ty v)) res := by
  rcases res with ⟨stop | v, vars', w'⟩
  · obtain ⟨hw, hthrown, f', pc, hfail⟩ := h
    exact ⟨(), f', w', pc, stop, hfail.extend hadds.grows, rfl, rfl, hw, hthrown⟩
  · obtain ⟨hw, hdepth, f', hlands⟩ := h
    have hafter : (same S).After ctx b.locals.size () () handling f f' vars' := hlands.after
    rcases hresult : r.result with _ | i <;> rcases husage : r.usage with _ | _ <;> rw [hresult, husage] at hres
    · cases hres
    · rw [hresult] at hcode
      cases hcode
      refine ⟨(), f', w', [], ⟨hafter, hlands.advances, hlands.stack, hlands.pending, ?_⟩, rfl, .nil, rfl, hw⟩
      rw [hdepth, hlands.stack, hbase]
    · rw [hresult] at hcode
      rw [husage] at hadds
      obtain ⟨hlocal, hportable⟩ := hlands.result i hresult
      obtain ⟨hflow, hadv⟩ := restore_runs ⟨S.lib, S.inv, none⟩ w' hcode hlink hlocal
      refine ⟨(), { f' with stack := v :: f'.stack }, w', [v], ⟨?_, hlands.advances.trans hadv, ?_, hlands.pending, ?_⟩,
        rfl, .cons ⟨rfl, hportable⟩ .nil, rfl, hw⟩
      · exact hafter.trans (hafter.corresponds.after le_rfl rfl rfl) le_rfl
      · exact congrArg (v :: ·) hlands.stack
      · refine hadds.depth (hflow (by rw [hdepth]; rfl)) hdepth ?_
        rw [List.length_cons, hlands.stack, hbase]
        rfl
    · cases hres

section

variable {body : Tree} {cs : List (CatchClause Tree)} {final : Option Tree} {b₁ b₂ b₃ b₄ b₅ b₆ : Builder}
  {es : List Handler} {D₂ D₃ D₄ D₅ D₆ : Nat → Option Nat}

/-- What runs in a region's local is the region's own. -/
theorem result_index
    (hparts : Emit.RegionCode r ctx (.of Tree.emission body) (cs.map (CatchClause.map (.of Tree.emission)))
      (final.map (.of Tree.emission)) b D b' b₁ b₂ b₃ b₄ b₅ b₆ es D₂ D₃ D₄ D₅ D₆ D') (hlink : b₂.Links u) :
    ∀ i ∈ r.result, b.locals.size ≤ i ∧ i < u.locals.size ∧ i < b₁.locals.size := by
  intro i hi
  obtain ⟨rfl, hb₁⟩ := hparts.result i hi
  have hle : b₁.newLabel.2.locals.size ≤ b₂.locals.size := by simpa using hparts.adds.grows.locals.length_le
  obtain ⟨hindex, hlt⟩ := Builder.newLocal_index r.ty hlink (by rw [← hb₁]; exact hle)
  rw [hindex, hb₁]
  exact ⟨le_rfl, hlt, by simp [Builder.newLocal]⟩

theorem region_ends
    (hparts : Emit.RegionCode r ctx (.of Tree.emission body) (cs.map (CatchClause.map (.of Tree.emission)))
      (final.map (.of Tree.emission)) b D b' b₁ b₂ b₃ b₄ b₅ b₆ es D₂ D₃ D₄ D₅ D₆ D')
    (hbody : (same S).Code ctx [] r.usage.count (Emitted.valueAs (.of Tree.emission body) r.ty r.usage)
      (Evaluated.valueAs (.of S.meaning body) r.ty) (r.usage.leaves r.ty))
    (hc : ∀ c ∈ cs, Clause S ctx r.ty r.usage c)
    (hemits : ∀ c ∈ cs, (c.map (.of Tree.emission)).Emits ctx r.ty r.usage)
    (hf : ∀ t ∈ final, (same S).Used ctx .discard t) (hfilter : ∀ c ∈ cs, c.filter = none)
    (hfit : ctx.Fits b) (hpast : b.Past) (hlink : b'.Links u)
    (hready : (same S).Ready ctx u b () handling f vars w w) (hdepth : f.stack.length = r.stackDepth) :
    (same S).Ends ctx r.usage.count u b b' () handling f w f.stack
      (fun κ v => (same S).Holds κ (r.usage.leaves r.ty v))
      (Eval.finishing (Eval.attempted r.ty (.of S.meaning body) (cs.map (CatchClause.map (.of S.meaning))))
        (final.map (.of S.meaning)) ((same S).eval handling) (vars, w)) := by
  have hleaves := hparts.leaves
  have hemits' := emits_clauses hemits
  have hfinal : ∀ t ∈ final.map (Tree.Child.of Tree.emission), Emits ctx 0 0 (Emitted.discard t) :=
    Option.forall_mem_map.2 fun t hmem => (hf t hmem).discard.emits
  -- the links of the parts, from the last one back
  have hlink₆ : b₆.Links u := hlink.mono hparts.closes.grows (by simp)
  obtain ⟨hlinkE, hjumpE⟩ := Emit.finalize_links hfinal hparts.handled hparts.finalized hlink₆
  have hpcE : (es.foldl Builder.addHandler b₅).pc = b₅.pc := by
    rw [Builder.addHandlers_eq]
    rfl
  have hjump₅ : ∀ pc, b₅.Written pc (.branch .always r.after) →
      u.instrs[pc]? = some (.branch .always (es.foldl Builder.addHandler b₅).pc) := by
    intro pc hpc
    refine hjumpE pc ?_
    rw [Builder.addHandlers_eq]
    exact hpc.of_eq rfl rfl rfl
  have hlink₅ : b₅.Links u := hlinkE.of_addHandlers
  have hlink₄ : b₄.Links u := hleaves.between.awaits.links hlink₅ hparts.more
  have hlink₂ : b₂.Links u := (hleaves.awaits.links hlink₄ hleaves.grows).mono hleaves.stored (by simp)
  have hlocal := result_index hparts hlink₂
  have hlocal' : ∀ i ∈ r.result, b.locals.size ≤ i ∧ i < u.locals.size := fun i hi =>
    ⟨(hlocal i hi).1, (hlocal i hi).2.1⟩
  -- the body
  have hg₁ : Builder.Grows [b₁.labels.size] b D b₁.newLabel.2 D := (hparts.opened.grows.mono (by simp)).trans .newLabel
  have hle₁ : b.locals.size ≤ b₁.locals.size := by simpa using hparts.opened.grows.locals.length_le
  have hpc₁ : b₁.newLabel.2.pc = b.pc := hparts.pc
  have hready₁ : (same S).Ready ctx u b₁.newLabel.2 () handling f vars w w :=
    ⟨hparts.depth.trans hready.depth, hready.nesting.trans hparts.opened.nesting.symm, hready.locals,
      hready.corresponds, hready.world⟩
  have hends := outcome_iff.1 (hbody.runs hparts.opened.tracks.newLabel (hfit.mono hg₁) (hpast.mono hg₁)
    hparts.body hlink₂ hready₁ rfl rfl .nil)
  have harrived : Arrived (same S) ctx u b b₁.newLabel.2 () () handling f f w w vars :=
    ⟨hready.corresponds.after le_rfl rfl rfl, by rw [hpc₁]; exact .refl, rfl, hle₁⟩
  have hcomes := (Comes.of_ends hends hleaves hfit hle₁ hparts.count hlocal' hready.locals hlink₄
    (hparts.more.pc_le.trans hpcE.ge) fun pc hpc => hjump₅ pc (hparts.more.written _ _ hpc)).after_run
      harrived le_rfl le_rfl
  -- the clauses
  have hg₄ : Builder.Grows [b₁.labels.size, r.after] b D b₄ D₄ :=
    ((hg₁.mono (by simp)).trans ((hparts.adds.grows.trans hleaves.stored).mono (by simp))).trans
      (hleaves.grows.mono (by simp))
  have hnest₄ : b₄.finallyNesting = r.finallyDepth := by
    rw [hleaves.nesting, hparts.adds.nesting, hparts.finallyDepth, ← hparts.opened.nesting]
    rfl
  have hserves := clauses_come hfit hparts.count hlocal' hlink₅ hpcE.ge hjump₅ cs hc hemits
    (by simpa using hg₄.locals.length_le) (hfit.mono hg₄) (hpast.mono hg₄) hleaves.between
    hnest₄ hparts.stop.le hparts.clauses
  have hpending : f.pending.length = r.finallyDepth := hready.nesting.trans hparts.finallyDepth.symm
  have hattempted := attempted_comes hcomes hserves hfilter hparts.start hparts.stop hleaves.between.tracks
    (fun D ht => by
      obtain ⟨D', hb', hg', -⟩ := (Emit.yields_clauses hparts.count _ hemits'
        ⟨ht, hleaves.between.depth, hleaves.between.low, hleaves.between.awaits⟩).result hparts.clauses
      exact ⟨_, D', hb'.tracks, hg'⟩)
    hdepth hpending hready.locals hlinkE
  -- the end
  refine Comes.restore ?_ hparts.restored hparts.closes hlink hparts.count hdepth
  cases final with
  | none =>
    rw [Option.map_none, Eval.finishing_none]
    exact hattempted.close hparts.handled hparts.between.awaits (by rw [Builder.addHandlers_eq]) hparts.finalized
  | some t =>
    obtain ⟨c₁, c₂, c₃, c₄, E₂, E₃, E₄, hcode⟩ := Emit.finalize_inv (hfinal _ rfl) hparts.handled hparts.finalized
    refine finishing_comes hcode hattempted (hf t rfl) hfit hpast
      ((hparts.opened.grows.mono (by simp)).trans hparts.grows) hlink₆ hparts.start hdepth hpending ?_
      hready.locals fun i hi => ⟨(hlocal i hi).1, ?_⟩
    · rw [(Emit.addHandlers_eq _ _).2.2, hparts.nesting, hparts.finallyDepth]
    · have hg : Builder.Grows [r.after] b₁ D c₂ E₂ :=
        (hparts.grows.trans hcode.entry.grows).trans (hcode.entered.2.1.mono (by simp))
      have hle : b₁.locals.size ≤ c₂.locals.size := by simpa using hg.locals.length_le
      exact (hlocal i hi).2.2.trans_le hle

end

theorem guarded {ty : Ty} {usage : Usage} {body : Tree} {cs : List (CatchClause Tree)} {final : Option Tree}
    (hu : usage = .value → ty.isVoid = false)
    (hbody : (same S).Code ctx [] usage.count (Emitted.valueAs (.of Tree.emission body) ty usage)
      (Evaluated.valueAs (.of S.meaning body) ty) (usage.leaves ty))
    (hc : ∀ c ∈ cs, Clause S ctx ty usage c)
    (hemits : ∀ c ∈ cs, (c.map (.of Tree.emission)).Emits ctx ty usage)
    (hf : ∀ t ∈ final, (same S).Used ctx .discard t) :
    (same S).Code ctx [] usage.count
      (Emit.guarded ty (.of Tree.emission body) (cs.map (CatchClause.map (.of Tree.emission)))
        (final.map (.of Tree.emission)) usage)
      (Eval.guarded ty (.of S.meaning body) (cs.map (CatchClause.map (.of S.meaning))) (final.map (.of S.meaning)))
      (usage.leaves ty) := by
  have hemits' := emits_clauses hemits
  have hfinal : ∀ t ∈ final.map (Tree.Child.of Tree.emission), Emits ctx 0 0 (Emitted.discard t) :=
    Option.forall_mem_map.2 fun t hmem => (hf t hmem).discard.emits
  have hvoid := Usage.unlessVoid_eq hu
  constructor
  · have h : Emits ctx 0 (usage.unlessVoid ty).count (Emit.guarded ty (.of Tree.emission body)
        (cs.map (CatchClause.map (.of Tree.emission))) (final.map (.of Tree.emission)) usage) :=
      Emit.emits_guarded (by rw [hvoid]; exact hbody.emits) (by rw [hvoid]; exact hemits') hfinal
    rwa [hvoid] at h
  intro b b' D u ht hfit hpast hcode hlink κ handling f vars w wE vs base hready hstack hlen hvs
  obtain rfl : w = wE := hready.world.1
  obtain rfl := List.length_eq_zero_iff.1 hlen
  obtain rfl : f.stack = base := hstack
  unfold Emit.guarded at hcode
  rw [hvoid] at hcode
  split at hcode
  · cases hcode
  rename_i hany
  have hfilter : ∀ c ∈ cs, c.filter = none := by
    intro c hmem
    rw [Bool.not_eq_true, List.any_map, List.any_eq_false] at hany
    simpa [CatchClause.map] using hany c hmem
  have hentered := EmitM.of_bind_ok (get_apply ctx b) hcode
  simp only [hready.depth] at hentered
  obtain ⟨r, b₁, b₂, b₃, b₄, b₅, b₆, es, D₂, D₃, D₄, D₅, D₆, D', rfl, rfl, hdepth, hparts⟩ :=
    Emit.region_inv hbody.emits hemits' hfinal ht hready.depth hentered
  have hends := region_ends hparts hbody hc hemits hf hfilter hfit hpast hlink hready hdepth.symm
  refine .inr ?_
  rw [Eval.guarded_eq]
  rcases hres : Eval.finishing (Eval.attempted r.ty (.of S.meaning body) (cs.map (CatchClause.map (.of S.meaning))))
    (final.map (.of S.meaning)) ((same S).eval handling) (vars, w) with ⟨stop | v, vars', w'⟩ <;> rw [hres] at hends
  · rw [Act.bind_error hres]
    exact hends
  · rw [Act.bind_ok hres]
    have hvalue : r.usage.leaves r.ty (Eval.unlessVoid r.ty v) = r.usage.leaves r.ty v := by
      cases husage : r.usage with
      | discard => rfl
      | value => simp [Eval.unlessVoid, hu husage]
    show (same S).Ends ctx _ u b b' _ handling f w f.stack _ (.ok (Eval.unlessVoid r.ty v), vars', w')
    obtain ⟨κ', f', w'', vs, harr, hlen', hholds, hw⟩ := hends
    refine ⟨κ', f', w'', vs, harr, hlen', ?_, hw⟩
    show (same S).Holds κ' (r.usage.leaves r.ty (Eval.unlessVoid r.ty v)) vs
    rw [hvalue]
    exact hholds

end Same

end ExprCompiler
