/-
Code generation finds what it looks up in the closure. Where the captures of a unit list every constant
and every lambda of the unit's body, and the layout is that of the captures, each lookup of an item
succeeds, so that code generation never ends in a defect of the layout, whatever else it meets.
-/
import ExprCompiler.Proofs.Emit.Refusals

namespace ExprCompiler

/-! ## Occurrences -/

namespace Tree

/-- A node occurs in a tree: it is the tree itself or occurs in a child, bodies of lambdas included. -/
inductive Occurs (n : Tree) : Tree → Prop
  | here : Occurs n n
  | inside {id : NodeId} {ty : Ty} {s : Shape Tree} {c : Tree} (child : c ∈ s.children) (occurs : Occurs n c) :
    Occurs n (.node id ty s)

theorem Occurs.trans {a b t : Tree} (hab : a.Occurs b) (hbt : b.Occurs t) : a.Occurs t := by
  induction hbt with
  | here => exact hab
  | inside child _ ih => exact .inside child ih

theorem Occurs.of_child {c t : Tree} (h : c ∈ t.children) : c.Occurs t := by
  obtain ⟨id, ty, s⟩ := t
  exact .inside h .here

theorem occurs_node {n : Tree} {id : NodeId} {ty : Ty} {s : Shape Tree} :
    n.Occurs (.node id ty s) ↔ n = .node id ty s ∨ ∃ c ∈ s.children, n.Occurs c := by
  constructor
  · rintro (_ | ⟨child, occurs⟩)
    · exact .inl rfl
    · exact .inr ⟨_, child, occurs⟩
  · rintro (rfl | ⟨c, child, occurs⟩)
    · exact .here
    · exact .inside child occurs

end Tree

namespace Capture

/-- The nodes of the captured constants. -/
def constantNodes (c : Capture) : List NodeId :=
  c.constants.map CapturedConstant.node

/-- The nodes of the nested lambdas. -/
def nestedNodes (c : Capture) : List NodeId :=
  c.nested.map NestedOf.node

/-- The captures list every lambda of a tree and every constant that does not fit into an instruction. -/
structure Records (c : Capture) (t : Tree) : Prop where
  constants : ∀ id ty v, Tree.Occurs (.node id ty (.constant v)) t → v.isImmediate = false → id ∈ c.constantNodes
  nested : ∀ id ty params body name, Tree.Occurs (.node id ty (.lambda params body name)) t → id ∈ c.nestedNodes

/-- What a nested lambda captures is captured here as well, so that its closure can be built. -/
structure Provides (c : Capture) (n : Nested) : Prop where
  artifact : n.capture.isSome → ∃ unit l, n.artifact = .curryable unit l
  constants : ∀ child ∈ n.capture, child.constantNodes ⊆ c.constantNodes
  nested : ∀ child ∈ n.capture, child.nestedNodes ⊆ c.nestedNodes

variable {c : Capture}

theorem Records.of_occurs {t t' : Tree} (h : c.Records t) (ht : t'.Occurs t) : c.Records t' :=
  ⟨fun id ty v ho => h.constants id ty v (ho.trans ht),
    fun id ty params body name ho => h.nested id ty params body name (ho.trans ht)⟩

theorem isEmpty_eq_false (h : 0 < c.constants.length + c.nested.length) : c.isEmpty = false := by
  rw [isEmpty, beq_eq_false_iff_ne, size]
  omega

/-- A recorded constant is found. -/
theorem constantIndex?_of_mem {id : NodeId} (h : id ∈ c.constantNodes) :
    ∃ i, c.constantIndex? id = some i ∧ i < c.constants.length := by
  obtain ⟨r, hr, rfl⟩ := List.mem_map.1 h
  have hsome : (c.constantIndex? r.node).isSome := by
    simp only [constantIndex?, List.findIdx?_isSome, List.any_eq_true]
    exact ⟨r, hr, by simp⟩
  obtain ⟨i, hi⟩ := Option.isSome_iff_exists.1 hsome
  exact ⟨i, hi, (List.findIdx?_eq_some_iff_getElem.1 hi).1⟩

/-- A recorded lambda is found, with the record of its node. -/
theorem nestedIndex?_of_mem {id : NodeId} (h : id ∈ c.nestedNodes) :
    ∃ i n, c.nestedIndex? id = some i ∧ i < c.nested.length ∧ c.nested[i]? = some n ∧ n.node = id := by
  obtain ⟨r, hr, rfl⟩ := List.mem_map.1 h
  have hsome : (c.nestedIndex? r.node).isSome := by
    simp only [nestedIndex?, List.findIdx?_isSome, List.any_eq_true]
    exact ⟨r, hr, by simp⟩
  obtain ⟨i, hi⟩ := Option.isSome_iff_exists.1 hsome
  obtain ⟨hlt, hnode, -⟩ := List.findIdx?_eq_some_iff_getElem.1 hi
  exact ⟨i, c.nested[i], hi, hlt, List.getElem?_eq_getElem hlt, by simpa using hnode⟩

end Capture

/-! ## Lookups -/

/-- Refusals that are defects of the layout. -/
def Refusal.IsOfLayout : Refusal → Prop
  | .defect d => d.isOfLayout = true
  | .declined _ => False

theorem Refusal.ofLookups_isOfLayout : OfLookups IsOfLayout :=
  ⟨fun _ => id, fun d hd h => by simp [IsOfLayout, hd] at h⟩

/-- The layout of a unit is that of its captures, which list what nested lambdas capture, too. -/
structure EmitContext.Serves (ctx : EmitContext) (c : Capture) : Prop where
  capture : ctx.capture = c
  provides : ∀ n ∈ c.nested, c.Provides n
  layout : c.isEmpty = false → ctx.layout.isSome
  counts : ∀ l ∈ ctx.layout, l.constants.length = c.constants.length ∧ l.params.length = c.params.length ∧
    l.nested.length = c.nested.length

theorem EmitContext.Serves.enter {ctx ctx' : EmitContext} {c : Capture} {vars : List Param} (h : ctx.Serves c)
    (he : ctx.Enters vars ctx') : ctx'.Serves c :=
  ⟨he.capture ▸ h.capture, h.provides, fun hc => he.layout ▸ h.layout hc, fun l hl => h.counts l (he.layout ▸ hl)⟩

namespace Emit

open EmitM Refusal

variable {ctx : EmitContext} {c : Capture} {id : NodeId}

theorem avoids_slot {l : Layout} {kind : ItemKind} {i : Nat} (h : i < l.count kind) :
    Avoids IsOfLayout ctx (check (l.slot kind i)) := by
  refine .check fun d hd => ?_
  rw [Layout.slot, if_pos h] at hd
  cases hd

/-- A recorded constant is found, with its slot. -/
theorem avoids_constant_slot {α : Type} (hs : ctx.Serves c) (h : id ∈ c.constantNodes)
    {f : Nat → Nat → EmitM α} (hf : ctx.layout.isSome → ∀ i slot, Avoids IsOfLayout ctx (f i slot)) :
    Avoids IsOfLayout ctx (do
      let i ← found ((← read).capture.constantIndex? id)
      let slot ← check ((← layout).slot .constant i)
      f i slot) := by
  obtain ⟨i, hi, hlt⟩ := Capture.constantIndex?_of_mem h
  have hl : ctx.layout.isSome := hs.layout (Capture.isEmpty_eq_false (by omega))
  refine .read ?_
  rw [hs.capture, hi]
  refine .bind_ok (fun _ => rfl) (avoids_layout hl fun l hmem => ?_)
  refine .bind (avoids_slot ?_) fun slot => hf hl i slot
  rw [Layout.count, (hs.counts l hmem).1]
  exact hlt

/-- A recorded lambda is found, with its slot and its record. -/
theorem avoids_nested_slot {α : Type} (hs : ctx.Serves c) (h : id ∈ c.nestedNodes) {f : Nat → Nat → EmitM α}
    (hf : ctx.layout.isSome → ∀ i slot, (∃ n ∈ c.nested, c.nested[i]? = some n) → Avoids IsOfLayout ctx (f i slot)) :
    Avoids IsOfLayout ctx (do
      let i ← found ((← read).capture.nestedIndex? id)
      let slot ← check ((← layout).slot .nested i)
      f i slot) := by
  obtain ⟨i, n, hi, hlt, hn, -⟩ := Capture.nestedIndex?_of_mem h
  have hl : ctx.layout.isSome := hs.layout (Capture.isEmpty_eq_false (by omega))
  refine .read ?_
  rw [hs.capture, hi]
  refine .bind_ok (fun _ => rfl) (avoids_layout hl fun l hmem => ?_)
  refine .bind (avoids_slot ?_) fun slot => hf hl i slot ⟨n, List.mem_of_getElem? hn, hn⟩
  rw [Layout.count, (hs.counts l hmem).2.2]
  exact hlt

theorem avoids_loadConstant (hs : ctx.Serves c) (h : id ∈ c.constantNodes) (ty : Ty) :
    Avoids IsOfLayout ctx (loadConstant id ty) :=
  avoids_constant_slot hs h fun hl _ slot => avoids_loadItem ofLookups_isOfLayout hl slot ty

theorem avoids_loadNested (hs : ctx.Serves c) (h : id ∈ c.nestedNodes) (ty : Ty) :
    Avoids IsOfLayout ctx (loadNested id ty) :=
  avoids_nested_slot hs h fun hl _ slot _ => avoids_loadItem ofLookups_isOfLayout hl slot ty

theorem avoids_resolve (hs : ctx.Serves c) (p : Param) : Avoids IsOfLayout ctx (resolve p) := by
  refine .read ?_
  split
  · exact .of_pure _
  · split
    · exact .of_pure _
    · split
      · rename_i i l hi hl
        rw [hs.capture] at hi
        refine .bind (avoids_slot ?_) fun _ => .of_pure _
        rw [Layout.count, (hs.counts l hl).2.1]
        exact (List.findIdx?_eq_some_iff_getElem.1 hi).1
      · exact .throw id

theorem avoids_constant (hs : ctx.Serves c) {v : Value} (himm : v.isImmediate = false)
    (h : id ∈ c.constantNodes) : Avoids IsOfLayout ctx (constant id v) := by
  unfold constant
  rw [himm]
  exact avoids_constant_slot hs h fun hl _ slot => .read (avoids_loadItem ofLookups_isOfLayout hl slot _)

/-- The items of a nested lambda's closure are items here. -/
theorem avoids_lambda (hs : ctx.Serves c) (h : id ∈ c.nestedNodes) : Avoids IsOfLayout ctx (lambda id) := by
  refine avoids_nested_slot hs h fun hl i slot ⟨n, hn, hi⟩ => .read ?_
  rw [hs.capture, hi]
  refine (avoids_loadItem ofLookups_isOfLayout hl slot _).bind fun _ => ?_
  have hp := hs.provides n hn
  rcases hc : n.capture with _ | child
  · exact .of_pure ()
  · obtain ⟨u, l, ha⟩ := hp.artifact (by rw [hc]; rfl)
    rw [ha]
    refine .bind (.forM _ fun r hr => ?_) fun _ =>
      .bind (.forM _ fun p _ => avoids_loadVar ofLookups_isOfLayout (avoids_resolve hs p) _) fun _ =>
      .bind (.forM _ fun m hm => ?_) fun _ =>
      .bind (ofLookups_isOfLayout.emit _) fun _ => ofLookups_isOfLayout.emit _
    · exact avoids_loadConstant hs (hp.constants child hc (List.mem_map_of_mem hr)) _
    · exact avoids_loadNested hs (hp.nested child hc (List.mem_map_of_mem hm)) _

/-- In captures that record a tree, everything is found that the codes of the tree look up. -/
theorem guards_records (c : Capture) : Guards IsOfLayout fun ctx t => ctx.Serves c ∧ c.Records t where
  constant := fun ⟨hs, hr⟩ himm => avoids_constant hs himm (hr.constants _ _ _ .here himm)
  nested := fun ⟨hs, hr⟩ => avoids_lambda hs (hr.nested _ _ _ _ _ .here)
  token := fun ⟨hs, _⟩ => avoids_resolve hs _
  inside := fun ⟨hs, hr⟩ _ hc he => ⟨hs.enter he, hr.of_occurs (.inside (Shape.mem_children_of_enclosed hc) .here)⟩

/-- The unit of a tree, with captures that record the tree and the layout of these. -/
theorem unit_avoids {t : Tree} (h : c.Records t) (hp : ∀ n ∈ c.nested, c.Provides n) {operators : Overloads}
    {name : String} {params : List Param} {ret : Ty} {limit : Nat} {r : Refusal}
    (hr : unit operators name t params ret c (if c.isEmpty then none else some (c.layout limit)) = .error r) :
    ¬ r.IsOfLayout := by
  set layout := if c.isEmpty then none else some (c.layout limit) with hlayout
  have hs : EmitContext.Serves { operators, params, capture := c, layout } c := by
    refine ⟨rfl, hp, fun hne => by simp [hlayout, hne], fun l hl => ?_⟩
    have : l = c.layout limit := by
      rw [hlayout] at hl
      split at hl <;> simp_all
    subst this
    simp [Capture.layout, Layout.ofTypes]
  exact (guards_records c).unit ofLookups_isOfLayout ⟨hs, h⟩ hr

end Emit

end ExprCompiler
