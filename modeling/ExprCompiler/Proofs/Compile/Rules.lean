/-
Rules for compilations. A compilation comes to a result or is refused, and adds to the session on the way. What can be
said of both is put together from the parts of the compilation; events count for nothing here. How a unit is linked, how
a body is analysed and how a root is compiled is gone through once, for whatever is to be said.
-/
import ExprCompiler.Compile
import Mathlib.Tactic

namespace ExprCompiler

/-- The layout of the closure for captures: units without captures have none. -/
def Capture.layout? (c : Capture) (limit : Nat) : Option Layout :=
  if c.isEmpty then none else some (c.layout limit)

/-- A lambda's unit with the layout of its closure. -/
def Artifact.ofLayout (unit : UnitRef) : Option Layout → Artifact
  | none => .bare unit
  | some l => .curryable unit l

/-- A unit was linked for the code of a tree over captures. Only the settings can give it native code. -/
structure CodeUnit.LinkedFor (c : Compiler) (units : Array CodeUnit) (ref : UnitRef) (name : String) (body : Tree)
    (params : List Param) (ret : Ty) (capture : Capture) : Prop where
  code : ∃ u native, Emit.unit c.operators name body params ret capture (capture.layout? c.settings.fixedFieldLimit) =
    .ok u ∧ units[ref.id]? = some { u with native := native } ∧ (c.settings.nativeEnabled = false → native = none)

namespace CompileM

variable {α β : Type} {c : Compiler} {s s' : Session}

theorem bind_apply (x : CompileM α) (f : α → CompileM β) (c : Compiler) (s : Session) :
    (x >>= f) c s = match x c s with
      | (.ok a, s') => f a c s'
      | (.error e, s') => (.error e, s') := by
  show (ReaderT.bind x f) c s = _
  simp only [ReaderT.bind, bind, ExceptT.bind, ExceptT.mk, StateT.bind, ExceptT.bindCont]
  rcases x c s with ⟨e | a, s'⟩ <;> rfl

theorem tryCatch_apply (x : CompileM α) (f : Refusal → CompileM α) (c : Compiler) (s : Session) :
    (tryCatch x f) c s = match x c s with
      | (.ok a, s') => (.ok a, s')
      | (.error e, s') => f e c s' := by
  show (ExceptT.tryCatch (x c) fun e => f e c) s = _
  simp only [ExceptT.tryCatch, ExceptT.mk, bind, StateT.bind]
  rcases x c s with ⟨e | a, s'⟩ <;> rfl

theorem bind_eq_ok {x : CompileM α} {f : α → CompileM β} {b : β} (h : (x >>= f) c s = (.ok b, s')) :
    ∃ a s₁, x c s = (.ok a, s₁) ∧ f a c s₁ = (.ok b, s') := by
  rw [bind_apply] at h
  rcases hx : x c s with ⟨e | a, s₁⟩ <;> rw [hx] at h
  · cases h
  · exact ⟨a, s₁, rfl, h⟩

/-! ## Promises -/

/-- What compilations promise: how they may change the session, and how they may be refused. -/
structure Promise where
  change : Session → Session → Prop
  refusal : Refusal → Prop
  of_units : ∀ {s s' : Session}, s'.units = s.units → change s s'
  trans : ∀ {s s' s''}, change s s' → change s' s'' → change s s''
  unsupported : ∀ u, refusal (.declined (.unsupported u))

/-- A compilation keeps to a promise, and gives a result with `Q` if it gives one. -/
def Promise.Kept (P : Promise) (c : Compiler) (s : Session) (x : CompileM α) (Q : α → Session → Prop) : Prop :=
  P.change s (x c s).2 ∧
    match x c s with
    | (.ok a, s') => Q a s'
    | (.error r, _) => P.refusal r

/-- Nothing is promised but results. -/
def Promise.nothing : Promise where
  change _ _ := True
  refusal _ := True
  of_units _ := trivial
  trans _ _ := trivial
  unsupported _ := trivial

namespace Promise.Kept

variable {P : Promise} {x : CompileM α} {Q : α → Session → Prop}

theorem result {a : α} (h : P.Kept c s x Q) (hx : x c s = (.ok a, s')) : P.change s s' ∧ Q a s' := by
  unfold Kept at h
  rw [hx] at h
  exact h

theorem of_result (x : CompileM α) : Promise.nothing.Kept c s x fun a s' => x c s = (.ok a, s') := by
  refine ⟨trivial, ?_⟩
  rcases x c s with ⟨r | a, s'⟩
  · trivial
  · rfl

theorem bind {f : α → CompileM β} {R : β → Session → Prop} (hx : P.Kept c s x Q)
    (hf : ∀ a s', P.change s s' → Q a s' → P.Kept c s' (f a) R) : P.Kept c s (x >>= f) R := by
  unfold Kept at hx ⊢
  rw [bind_apply]
  rcases hxs : x c s with ⟨e | a, s'⟩ <;> rw [hxs] at hx
  · exact hx
  · obtain ⟨hchange, hQ⟩ := hx
    exact ⟨P.trans hchange (hf a s' hchange hQ).1, (hf a s' hchange hQ).2⟩

theorem mono {R : α → Session → Prop} (hx : P.Kept c s x Q) (h : ∀ a s', P.change s s' → Q a s' → R a s') :
    P.Kept c s x R := by
  unfold Kept at hx ⊢
  rcases hxs : x c s with ⟨e | a, s'⟩ <;> rw [hxs] at hx
  · exact hx
  · exact ⟨hx.1, h a s' hx.1 hx.2⟩

/-- What is known of every result may be added. -/
theorem given {R : α → Session → Prop} (hx : P.Kept c s x Q) (h : ∀ a s', x c s = (.ok a, s') → R a s') :
    P.Kept c s x fun a s' => Q a s' ∧ R a s' := by
  unfold Kept at hx ⊢
  rcases hxs : x c s with ⟨e | a, s'⟩ <;> rw [hxs] at hx
  · exact hx
  · exact ⟨hx.1, hx.2, h a s' hxs⟩

theorem of_pure {a : α} (h : Q a s) : P.Kept c s (pure a) Q :=
  ⟨P.of_units rfl, h⟩

theorem throw {r : Refusal} (h : P.refusal r) : P.Kept c s (throw r) Q :=
  ⟨P.of_units rfl, h⟩

theorem decline (u : Unsupported) : P.Kept c s (decline u) Q :=
  throw (P.unsupported u)

theorem check {r : Except Defect α} (hok : ∀ a, r = .ok a → Q a s) (herr : ∀ d, r = .error d → P.refusal (.defect d)) :
    P.Kept c s (check r) Q := by
  cases r with
  | ok a => exact of_pure (hok a rfl)
  | error d => exact throw (herr d rfl)

theorem report (e : Event) : P.Kept c s (report e) fun _ s' => s'.units = s.units :=
  ⟨P.of_units rfl, rfl⟩

theorem read {f : Compiler → CompileM β} {R : β → Session → Prop} (hf : P.Kept c s (f c) R) :
    P.Kept c s (read >>= f) R :=
  bind (Q := fun a s' => a = c ∧ s' = s) ⟨P.of_units rfl, rfl, rfl⟩ fun _ _ _ h => by
    rw [h.1, h.2]
    exact hf

theorem reporting (name : String) (staged : Bool) (hx : P.Kept c s x Q) : P.Kept c s (reporting name staged x) Q := by
  unfold Kept at hx ⊢
  unfold CompileM.reporting
  rw [tryCatch_apply]
  rcases hxs : x c s with ⟨r | a, s'⟩ <;> rw [hxs] at hx
  · have hsame : ∀ s₁ : Session, s₁.units = s'.units → P.change s s₁ := fun s₁ h => P.trans hx.1 (P.of_units h)
    -- the handler throws what it was given, behind events
    cases r with
    | defect d => exact ⟨hsame _ rfl, hx.2⟩
    | declined reason => cases staged <;> exact ⟨hsame _ rfl, hx.2⟩
  · exact hx

end Promise.Kept

/-! ## Linking -/

/-- The code of a unit over captures. -/
abbrev unitOf (c : Compiler) (name : String) (body : Tree) (params : List Param) (ret : Ty) (capture : Capture) :
    Except Refusal CodeUnit :=
  Emit.unit c.operators name body params ret capture (capture.layout? c.settings.fixedFieldLimit)

/-- What a promise needs of the code of a unit. -/
structure Promise.Links (P : Promise) (c : Compiler) (name : String) (body : Tree) (params : List Param) (ret : Ty)
    (capture : Capture) : Prop where
  refused : ∀ r, unitOf c name body params ret capture = .error r → P.refusal r
  malformed : ∀ u p text, unitOf c name body params ret capture = .ok u → u.depths = .error p →
    P.refusal (.defect (.malformedUnit name text))
  lower : ∀ u n d, unitOf c name body params ret capture = .ok u → u.lower n = .error d → P.refusal (.defect d)
  push : ∀ u native s, unitOf c name body params ret capture = .ok u →
    P.change s { s with units := s.units.push { u with native := native } }

variable {P : Promise} {name : String} {body : Tree} {params : List Param} {ret : Ty} {capture : Capture}

theorem native_of_unit {operators : Overloads} {layout : Option Layout} {u : CodeUnit}
    (h : Emit.unit operators name body params ret capture layout = .ok u) : u.native = none := by
  unfold Emit.unit Builder.finish at h
  split at h
  · cases h
  · split at h
    · rename_i u' hfinish
      split at hfinish
      · cases hfinish
      · split at hfinish
        · cases hfinish
        · cases hfinish
          cases h
          rfl
    · cases h

theorem kept_layoutOf (name : String) (capture : Capture) : P.Kept c s (layoutOf name capture) fun l s' =>
    l = capture.layout? c.settings.fixedFieldLimit ∧ s'.units = s.units := by
  unfold layoutOf Capture.layout?
  split
  · exact .of_pure ⟨rfl, rfl⟩
  · exact (Promise.Kept.report _).bind fun _ _ _ h => .read (.of_pure ⟨rfl, h⟩)

theorem kept_emitted (h : P.Links c name body params ret capture) :
    P.Kept c s (emitted name body params ret capture (capture.layout? c.settings.fixedFieldLimit)) fun u s' =>
      unitOf c name body params ret capture = .ok u ∧ s'.units = s.units := by
  refine (Promise.Kept.report _).bind fun _ s₁ _ h₁ => .read ?_
  have hunit : P.Kept c s₁ (MonadExcept.ofExcept (unitOf c name body params ret capture)) fun u s' =>
      unitOf c name body params ret capture = .ok u ∧ s'.units = s.units := by
    rcases hx : unitOf c name body params ret capture with r | u
    · exact .throw (h.refused r hx)
    · exact .of_pure ⟨rfl, h₁⟩
  refine (hunit.reporting name true).bind fun u s₂ _ h₂ => ?_
  exact (Promise.Kept.report _).bind fun _ s₃ _ h₃ => .of_pure ⟨h₂.1, h₃.trans h₂.2⟩

theorem kept_verify (h : P.Links c name body params ret capture) {u : CodeUnit}
    (hu : unitOf c name body params ret capture = .ok u) (isRoot : Bool) :
      P.Kept c s (verify name u isRoot) fun _ s' => s'.units = s.units := by
  refine .read ?_
  rcases hds : u.depths with p | ds
  · simp only
    split
    · exact ⟨P.of_units rfl, h.malformed u p _ hu hds⟩
    · exact .of_pure rfl
  · simp only [ite_self]
    exact .of_pure rfl

theorem kept_lowered (h : P.Links c name body params ret capture) {u : CodeUnit}
    (hu : unitOf c name body params ret capture = .ok u) (layout : Option Layout) :
      P.Kept c s (lowered name u layout) fun u' s' =>
      (∃ native, u' = { u with native := native } ∧ (c.settings.nativeEnabled = false → native = none)) ∧
        s'.units = s.units := by
  have hsame : ∃ native, u = { u with native := native } ∧ (c.settings.nativeEnabled = false → native = none) :=
    ⟨none, by rw [← native_of_unit hu], fun _ => rfl⟩
  refine .read ?_
  split
  · rename_i henabled
    refine .read ((Promise.Kept.check (Q := fun _ s' => s'.units = s.units) (fun _ _ => rfl)
      fun d hd => h.lower u _ d hu hd).bind fun l s₁ _ h₁ => ?_)
    cases l with
    | native code =>
      refine (Promise.Kept.report _).bind fun _ s₂ _ h₂ => .of_pure ⟨⟨some code, rfl, fun hn => ?_⟩, h₂.trans h₁⟩
      simp [hn] at henabled
    | ineligible => exact .of_pure ⟨hsame, h₁⟩
    | skipped reason | failed problem =>
      exact (Promise.Kept.report _).bind fun _ _ _ h₂ => .of_pure ⟨hsame, h₂.trans h₁⟩
  · exact .of_pure ⟨hsame, rfl⟩

/-- The unit that is linked comes behind those of the session. -/
theorem kept_link (h : P.Links c name body params ret capture) (isRoot : Bool) :
    P.Kept c s (link name body params ret capture isRoot) fun r s' =>
      r.2 = capture.layout? c.settings.fixedFieldLimit ∧ r.1.id = s.units.size ∧
        CodeUnit.LinkedFor c s'.units r.1 name body params ret capture := by
  refine (kept_layoutOf name capture).bind fun l s₁ _ hl => ?_
  obtain ⟨rfl, h₁⟩ := hl
  refine (kept_emitted h).bind fun u s₂ _ hemitted => ?_
  obtain ⟨hu, h₂⟩ := hemitted
  refine (kept_verify h hu isRoot).bind fun _ s₃ _ h₃ => ?_
  refine (kept_lowered h hu _).bind fun u' s₄ _ hlowered => ?_
  obtain ⟨⟨native, rfl, hn⟩, h₄⟩ := hlowered
  refine (Promise.Kept.report _).bind fun _ s₅ _ h₅ => (Promise.Kept.report _).bind fun _ s₆ _ h₆ => ?_
  have hnew : P.Kept c s₆ (newUnit { u with native := native }) fun r s' =>
      r.id = s₆.units.size ∧ s'.units[r.id]? = some { u with native := native } :=
    ⟨h.push u native s₆ hu, rfl, Array.getElem?_push_size⟩
  refine hnew.bind fun r s₇ _ hr => .of_pure ⟨rfl, ?_, ⟨u, native, hu, hr.2, hn⟩⟩
  rw [hr.1, h₆, h₅, h₄, h₃, h₂, h₁]

/-- A unit that is linked has been emitted. -/
theorem Promise.links_nothing : Promise.nothing.Links c name body params ret capture :=
  ⟨fun _ _ => trivial, fun _ _ _ _ _ => trivial, fun _ _ _ _ _ => trivial, fun _ _ _ _ => trivial⟩

end CompileM

/-! ## Units of lambdas and roots -/

namespace Analyze

open CompileM CompileM.Promise

variable {c : Compiler} {s : Session} {P : Promise} {Q : Capture → Session → Prop}

theorem kept_run {x : AnalyzeM Unit} {params : List Param}
    (hx : ∀ s₁ : Session, s₁.units = s.units → P.Kept c s₁ (x ⟨params, []⟩ {}) fun r s' => Q r.2 s') (name : String) :
    P.Kept c s (run name x params) fun capture s' => ∃ s₁, s'.units = s₁.units ∧ P.change s s₁ ∧ Q capture s₁ := by
  refine (Kept.report _).bind fun _ s₁ _ h₁ => ?_
  have hcaptures : P.Kept c s₁ (capturesOf x params) Q := (hx s₁ h₁).bind fun _ _ _ h => .of_pure h
  refine (hcaptures.reporting name true).bind fun capture s₂ h₂ hQ => ?_
  exact (Kept.report _).bind fun _ s₃ _ h₃ => .of_pure ⟨s₂, h₃, P.trans (P.of_units h₁) h₂, hQ⟩

/-- The record of a nested lambda: its unit was linked, over captures that the analysis has found, behind the units of
the session. -/
inductive Recorded (P : Promise) (c : Compiler) (s : Session) (Q : Capture → Session → Prop) (id : NodeId) (ty : Ty)
    (params : List Param) (body : Tree) (name : Option String) : Nested → Session → Prop
  | record {sig : Signature} {capture : Capture} {ref : UnitRef} {s₁ s' : Session}
    (signature : ty.signature? = some sig)
      (before : P.change s s₁) (found : Q capture s₁) (after : P.change s₁ s') (new : s₁.units.size ≤ ref.id)
      (linked : CodeUnit.LinkedFor c s'.units ref (name.getD "lambda") body params sig.ret capture) :
    Recorded P c s Q id ty params body name ⟨id, .ofLayout ref (capture.layout? c.settings.fixedFieldLimit),
      if capture.isEmpty then none else some capture, sig⟩ s'

theorem kept_compileNested {id : NodeId} {ty : Ty} {params : List Param} {body : Tree} {name : Option String}
    (hx : ∀ s₁ : Session, s₁.units = s.units → P.Kept c s₁ (body.analysis ⟨params, []⟩ {}) fun r s' => Q r.2 s')
    (hlink : ∀ ret capture s₁, Q capture s₁ → P.Links c (name.getD "lambda") body params ret capture) :
    P.Kept c s (compileNested id ty params (.of Tree.analysis body) name)
    (Recorded P c s Q id ty params body name) := by
  unfold compileNested
  cases hsig : ty.signature? with
  | none => exact .decline _
  | some sig =>
    dsimp only
    split
    · exact .bind (Q := fun _ _ => False) (.decline _) fun _ _ _ h => h.elim
    · refine (kept_run hx _).bind fun capture s₁ _ hrun => ?_
      obtain ⟨s₀, h₁, h₀, hQ⟩ := hrun
      refine (kept_link (hlink sig.ret capture s₀ hQ) false).bind fun r s₂ h₂ hlinked => .of_pure ?_
      obtain ⟨ref, l⟩ := r
      obtain ⟨rfl, hid, hlinked⟩ := hlinked
      have hrecord : Recorded P c s Q id ty params body name _ s₂ :=
        .record hsig h₀ hQ (P.trans (P.of_units h₁) h₂) (h₁ ▸ hid.ge) hlinked
      dsimp only at hrecord ⊢
      generalize capture.layout? c.settings.fixedFieldLimit = l at hrecord ⊢
      cases l <;> exact hrecord

/-- Captures that the analysis of a body has found. -/
def Found (c : Compiler) (body : Tree) (params : List Param) (capture : Capture) (s' : Session) : Prop :=
  ∃ s, body.analysis ⟨params, []⟩ {} c s = (.ok ((), capture), s')

theorem kept_found (body : Tree) (params : List Param) :
    Promise.nothing.Kept c s (body.analysis ⟨params, []⟩ {}) fun r s' => Found c body params r.2 s' :=
  (Kept.of_result _).mono fun _ _ _ h => ⟨s, h⟩

end Analyze

namespace CompileM

/-- A root's artifact holds what the root captures: nothing, or a closure made for it. -/
def HeldBy (capture : Capture) (w : World) : Option Layout → Artifact → Prop
  | none, .bare _ => True
  | some l, .bound _ ref => ∃ closure, capture.materialize l = .ok closure ∧ w.closures[ref.id]? = some closure
  | _, _ => False

/-- A root that was compiled: its unit, over captures that the analysis found, and the closure that holds them. -/
structure Rooting (P : Promise) (c : Compiler) (s : Session) (Q : Capture → Session → Prop) (name : String)
    (body : Tree)
    (params : List Param) (requested : Requested) (capture : Capture) (ret : Ty) (a : Artifact) (s' : Session) :
      Prop where
  result : requested.resultOf body.ty params = .ok ret
  found : ∃ s₁, P.change s s₁ ∧ P.change s₁ s' ∧ Q capture s₁ ∧ s₁.units.size ≤ a.unit.id
  closed : capture.params = []
  linked : CodeUnit.LinkedFor c s'.units a.unit name body params ret capture
  holds : HeldBy capture s'.world (capture.layout? c.settings.fixedFieldLimit) a

variable {c : Compiler} {s : Session} {P : Promise} {Q : Capture → Session → Prop} {name : String} {body : Tree}
  {params : List Param}

theorem kept_root {requested : Requested}
    (hx : ∀ s₁ : Session, s₁.units = s.units → P.Kept c s₁ (body.analysis ⟨params, []⟩ {}) fun r s' => Q r.2 s')
    (hparams : ∀ capture s₁ p, Q capture s₁ → p ∈ capture.params → P.refusal (.declined (.invalidCapture p.name)))
    (hlink : ∀ ret capture s₁, Q capture s₁ → P.Links c name body params ret capture)
    (hmaterialize : ∀ capture s₁ d, Q capture s₁ →
      capture.materialize (capture.layout c.settings.fixedFieldLimit) = .error d → P.refusal (.defect d)) :
    P.Kept c s (root name body params requested) fun a s' =>
      ∃ capture ret, Rooting P c s Q name body params requested capture ret a s' := by
  refine .bind (Q := fun ret s₁ => requested.resultOf body.ty params = .ok ret ∧ s₁.units = s.units)
    (.reporting name false ?_) fun ret s₁ _ hret => ?_
  · cases requested.resultOf body.ty params with
    | ok ret => exact .of_pure ⟨rfl, rfl⟩
    | error u => exact .decline u
  obtain ⟨hret, h₁⟩ := hret
  refine (Analyze.kept_run (fun s₂ h₂ => hx s₂ (h₂.trans h₁)) name).bind fun capture s₂ _ hrun => ?_
  obtain ⟨s₀, h₂, h₀, hQ⟩ := hrun
  rcases hps : capture.params with _ | ⟨p, ps⟩ <;> dsimp only
  · refine (kept_link (hlink ret capture s₀ hQ) true).bind fun r s₃ h₃ hlinked => ?_
    obtain ⟨ref, l⟩ := r
    obtain ⟨rfl, hid, hlinked⟩ := hlinked
    have hfound : ∀ s₄ : Session, s₄.units = s₃.units →
        ∃ s₅, P.change s s₅ ∧ P.change s₅ s₄ ∧ Q capture s₅ ∧ s₅.units.size ≤ ref.id := fun s₄ h₄ =>
      ⟨s₀, P.trans (P.of_units h₁) h₀, P.trans (P.trans (P.of_units h₂) h₃) (P.of_units h₄),
        hQ, by rw [← h₂]; exact hid.ge⟩
    rcases hl : capture.layout? c.settings.fixedFieldLimit with _ | l <;> dsimp only
    · refine .of_pure ⟨capture, ret, hret, hfound s₃ rfl, hps, hlinked, ?_⟩
      rw [hl]
      trivial
    · have hlayout : l = capture.layout c.settings.fixedFieldLimit := by
        rw [Capture.layout?] at hl
        split at hl
        · cases hl
        · exact (Option.some.inj hl).symm
      refine (Promise.Kept.check (Q := fun closure s₄ => capture.materialize l = .ok closure ∧ s₄ = s₃)
        (fun closure h => ⟨h, rfl⟩) fun d hd => hmaterialize capture s₀ d hQ (hlayout ▸ hd)).bind
          fun closure s₄ _ h₄ => ?_
      obtain ⟨hclosure, rfl⟩ := h₄
      refine ⟨P.of_units rfl, capture, ret, hret, hfound _ rfl, hps, hlinked, ?_⟩
      rw [hl]
      exact ⟨closure, hclosure, Array.getElem?_push_size⟩
  · refine (Promise.Kept.reporting name true (Q := fun _ _ => False) (.throw ?_)).bind fun _ _ _ h => h.elim
    exact hparams capture s₀ p hQ (by rw [hps]; exact List.mem_cons_self)

theorem root_inv {requested : Requested} {a : Artifact} {s' : Session}
    (h : root name body params requested c s = (.ok a, s')) :
    ∃ capture ret, Rooting .nothing c s (Analyze.Found c body params) name body params requested capture ret a s' :=
  ((kept_root (fun _ _ => Analyze.kept_found body params) (fun _ _ _ _ _ => trivial)
    (fun _ _ _ _ => Promise.links_nothing) fun _ _ _ _ _ => trivial).result h).2

end CompileM

end ExprCompiler
