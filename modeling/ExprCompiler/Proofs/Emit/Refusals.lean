/-
How code generation is refused. Most refusals are met at any node: a construct without code, a defect of the
code under construction. Others come from lookups only, of a variable or of a closure item. Code
generation avoids the latter if each lookup does.
-/
import ExprCompiler.Proofs.Emit.Pairs

namespace ExprCompiler

/-- Refusals that only lookups of variables and closure items end in. -/
structure Refusal.OfLookups (bad : Refusal → Prop) : Prop where
  unsupported : ∀ u, ¬ bad (.declined (.unsupported u))
  defect : ∀ d, d.isOfLayout = false → ¬ bad (.defect d)

/-! ## Generators that are not refused -/

namespace EmitM

variable {α β γ : Type} {bad : Refusal → Prop} {ctx : EmitContext}

/-- The generator never ends in a refusal of the given kind. -/
def Avoids (bad : Refusal → Prop) (ctx : EmitContext) (x : EmitM α) : Prop :=
  ∀ b r, x ctx b = .error r → ¬ bad r

namespace Avoids

theorem of_pure (a : α) : Avoids bad ctx (pure a) := fun _ _ h => by cases h

variable {x : EmitM α} {f : α → EmitM β}

/-- The rest may rely on what the first step can give. -/
theorem bind_given (hx : Avoids bad ctx x)
    (hf : ∀ a, (∃ b b', x ctx b = .ok (a, b')) → Avoids bad ctx (f a)) : Avoids bad ctx (x >>= f) := by
  intro b r h
  rw [bind_apply] at h
  rcases hxb : x ctx b with e | ⟨a, b'⟩ <;> rw [hxb] at h
  · cases h
    exact hx b _ hxb
  · exact hf a ⟨b, b', hxb⟩ b' r h

theorem bind (hx : Avoids bad ctx x) (hf : ∀ a, Avoids bad ctx (f a)) :
    Avoids bad ctx (x >>= f) :=
  hx.bind_given fun a _ => hf a

/-- A step whose result is known, before the rest. -/
theorem bind_ok {a : α} (hx : ∀ b, x ctx b = .ok (a, b)) (hf : Avoids bad ctx (f a)) :
    Avoids bad ctx (x >>= f) := by
  intro b r h
  rw [bind_apply, hx b] at h
  exact hf b r h

theorem read {f : EmitContext → EmitM β} (hf : Avoids bad ctx (f ctx)) : Avoids bad ctx (read >>= f) :=
  bind_ok (read_apply ctx) hf

theorem throw {r : Refusal} (h : ¬ bad r) : Avoids bad ctx (throw r : EmitM α) := by
  rintro b r ⟨⟩
  exact h

theorem check {r : Except Defect α} (h : ∀ d, r = .error d → ¬ bad (.defect d)) : Avoids bad ctx (check r) := by
  cases r with
  | ok a => exact of_pure a
  | error d => exact throw (h d rfl)

theorem ite {c : Prop} [Decidable c] {y : EmitM α} (hx : Avoids bad ctx x) (hy : Avoids bad ctx y) :
    Avoids bad ctx (if c then x else y) := by
  split
  · exact hx
  · exact hy

theorem forM {f : γ → EmitM Unit} : ∀ xs : List γ, (∀ x ∈ xs, Avoids bad ctx (f x)) → Avoids bad ctx (xs.forM f)
  | [], _ => of_pure ()
  | x :: xs, h => by
    show Avoids bad ctx (f x >>= fun _ => xs.forM f)
    exact (h x List.mem_cons_self).bind fun _ => forM xs fun y hy => h y (List.mem_cons_of_mem x hy)

/-- The generator beside itself. -/
theorem both (h : Avoids bad ctx x) : (Pairing.same fun r => ¬ bad r).Both ctx ctx x x := by
  rintro b _ rfl
  rcases hx : x ctx b with r | ⟨a, c⟩
  · exact .error ⟨rfl, h b r hx⟩
  · exact .ok (Pairing.grows_same b c) rfl

theorem of_both (h : (Pairing.same fun r => ¬ bad r).Both ctx ctx x x) : Avoids bad ctx x := by
  intro b r hx
  have hends := h b b rfl
  rw [hx] at hends
  cases hends with
  | error h => exact h.2

end Avoids

end EmitM

theorem Refusal.OfLookups.lawful {bad : Refusal → Prop} (hbad : OfLookups bad) :
    (Pairing.same fun r => ¬ bad r).Lawful :=
  Pairing.lawful_same hbad.unsupported hbad.defect

theorem Refusal.OfLookups.emit {bad : Refusal → Prop} (hbad : OfLookups bad) {ctx : EmitContext} (i : Instr) :
    EmitM.Avoids bad ctx (EmitM.emit i) := by
  intro b r h
  unfold EmitM.emit EmitM.build at h
  split at h
  · cases h
  · rename_i d hd
    cases h
    exact hbad.defect d (b.plain_emit i d hd)

/-! ## Variables and closure items -/

namespace Emit

open EmitM Refusal

variable {bad : Refusal → Prop} {ctx : EmitContext} {p : Param}

theorem avoids_layout {α : Type} (h : ctx.layout.isSome) {f : Layout → EmitM α}
    (hf : ∀ l ∈ ctx.layout, Avoids bad ctx (f l)) : Avoids bad ctx (layout >>= f) := by
  obtain ⟨l, hl⟩ := Option.isSome_iff_exists.1 h
  refine .bind_ok (a := l) (fun b => ?_) (hf l hl)
  rw [EmitM.layout, bind_apply, read_apply]
  simp only [hl]
  rfl

variable (hbad : OfLookups bad)

include hbad

theorem avoids_loadItem (h : ctx.layout.isSome) (slot : Nat) (ty : Ty) :
    Avoids bad ctx (loadItem slot ty) := by
  refine avoids_layout h fun l _ => ?_
  split
  · exact hbad.emit _
  · exact .bind (hbad.emit _) fun _ => .ite (hbad.emit _) (.ite (hbad.emit _) (.of_pure ()))

omit hbad in
/-- A variable that is a closure item is one of a unit with a closure. -/
theorem isSome_layout_of_resolve {b b' : Builder} {slot : Nat}
    (h : resolve p ctx b = .ok (.closure slot, b')) : ctx.layout.isSome := by
  rcases hl : ctx.layout with _ | l
  · exfalso
    rw [resolve, bind_apply, read_apply] at h
    rcases hv : localOf? ctx.scopes p with _ | i
    · rcases ha : ctx.params.findIdx? (· == p) with _ | i <;> simp [hl, hv, ha] at h
    · simp [hv] at h
  · rfl

theorem avoids_loadResolved {var : FrameVar}
    (h : ∃ b b', resolve p ctx b = .ok (var, b')) (ty : Ty) : Avoids bad ctx (loadVar var ty) := by
  obtain ⟨b, b', h⟩ := h
  cases var with
  | arg i | localVar i => exact hbad.emit _
  | closure slot => exact avoids_loadItem hbad (isSome_layout_of_resolve h) slot ty

theorem avoids_loadVar (h : Avoids bad ctx (resolve p)) (ty : Ty) :
    Avoids bad ctx (do loadVar (← resolve p) ty) :=
  h.bind_given fun _ hvar => avoids_loadResolved hbad hvar ty

theorem avoids_storeVar {var : FrameVar}
    (h : ∃ b b', resolve p ctx b = .ok (var, b')) : Avoids bad ctx (storeVar var) := by
  obtain ⟨b, b', h⟩ := h
  cases var with
  | arg i | localVar i => exact hbad.emit _
  | closure slot => exact avoids_layout (isSome_layout_of_resolve h) fun l _ => hbad.emit _

end Emit

/-! ## Scopes -/

/-- The context of code in the scope of some more variables of the same unit. -/
structure EmitContext.Enters (ctx : EmitContext) (vars : List Param) (ctx' : EmitContext) : Prop where
  params : ctx'.params = ctx.params
  capture : ctx'.capture = ctx.capture
  layout : ctx'.layout = ctx.layout
  declares : ∀ p, (EmitM.localOf? ctx'.scopes p).isSome ↔ p ∈ vars ∨ (EmitM.localOf? ctx.scopes p).isSome

theorem Emit.Opens.enters {ctx ctx₁ ctx₁' : EmitContext} {vars : List Param} (h : Opens ctx ctx vars ctx₁ ctx₁') :
    ctx₁' = ctx₁ ∧ ctx.Enters vars ctx₁ := by
  cases h with
  | refl => exact ⟨rfl, rfl, rfl, rfl, fun p => by simp⟩
  | scope h hc =>
    subst h hc
    exact ⟨rfl, rfl, rfl, rfl, fun p => by simp [EmitM.localOf?]⟩

/-! ## Trees and units -/

namespace Emit

open EmitM Refusal

variable {bad : Refusal → Prop} {ctx : EmitContext}

/-- A property of trees in contexts under which lookups are not refused, and which goes over to all nodes
below whose code is of the same unit. -/
structure Guards (bad : Refusal → Prop) (Good : EmitContext → Tree → Prop) : Prop where
  constant : ∀ {ctx id ty v}, Good ctx (.node id ty (.constant v)) → v.isImmediate = false →
    Avoids bad ctx (Emit.constant id v)
  nested : ∀ {ctx id ty params body name}, Good ctx (.node id ty (.lambda params body name)) →
    Avoids bad ctx (lambda id)
  token : ∀ {ctx id ty p}, Good ctx (.node id ty (.parameter p)) → Avoids bad ctx (resolve p)
  inside : ∀ {ctx ctx' id ty s c}, Good ctx (.node id ty s) → (∀ params body name, s ≠ .lambda params body name) →
    c ∈ s.enclosed → ctx.Enters c.1 ctx' → Good ctx' c.2

theorem Guards.guides (hbad : OfLookups bad) {Good : EmitContext → Tree → Prop} (hg : Guards bad Good) :
    Guides (.same fun r => ¬ bad r) (fun id => id) fun ctx ctx' t => ctx' = ctx ∧ Good ctx t where
  full _ _ := fun _ _ => trivial
  operators := by
    rintro _ _ _ ⟨rfl, -⟩
    rfl
  catchLocals := by
    rintro _ _ _ ⟨rfl, -⟩
    rfl
  constant := by
    rintro _ _ _ _ _ ⟨rfl, h⟩ himm
    exact (hg.constant h himm).both
  nested := by
    rintro _ _ _ _ _ _ _ ⟨rfl, h⟩
    exact (hg.nested h).both
  token := by
    rintro _ ctx _ _ p ⟨rfl, h⟩ b _ rfl
    rcases hx : resolve p ctx b with r | ⟨x, c⟩
    · exact .error ⟨rfl, hg.token h b r hx⟩
    · exact .ok (Pairing.grows_same b c) ⟨rfl, (avoids_loadResolved hbad ⟨b, c, hx⟩ _).both,
        (avoids_storeVar hbad ⟨b, c, hx⟩).both⟩
  inside := by
    rintro _ _ _ _ _ _ _ _ ⟨rfl, h⟩ hs hc ho
    exact ⟨ho.enters.1, hg.inside h hs hc ho.enters.2⟩

/-- The unit of a tree. -/
theorem Guards.unit (hbad : OfLookups bad) {Good : EmitContext → Tree → Prop} (hg : Guards bad Good) {t : Tree}
    {operators : Overloads} {params : List Param} {capture : Capture} {layout : Option Layout}
    (h : Good { operators, params, capture, layout } t) {name : String} {ret : Ty} {r : Refusal}
    (hr : Emit.unit operators name t params ret capture layout = .error r) : ¬ bad r := by
  have hboth := (hg.guides hbad).body hbad.lawful ⟨rfl, h⟩ ret
  rw [Tree.rename_self] at hboth
  unfold Emit.unit at hr
  split at hr
  · rename_i hrun
    cases hr
    exact Avoids.of_both hboth _ _ hrun
  · split at hr
    · cases hr
    · rename_i b _ d hf
      cases hr
      exact hbad.defect d (Builder.plain_finish _ d hf)

end Emit

end ExprCompiler
