/-
Positions of closure items. The items of a unit lie one after the other: constants, captured parameters, nested
lambdas. As long as 16 bits can count them, each has a position of its own, and a closure keeps each item apart from
the others, however it is stored.
-/
import ExprCompiler.Capture
import Mathlib.Tactic

namespace ExprCompiler

namespace Layout

/-- The items of a layout, group after group. -/
def places (l : Layout) : List (ItemKind × Nat) :=
  [.constant, .param, .nested].flatMap fun kind => (List.range (l.count kind)).map (kind, ·)

variable {l : Layout} {kind : ItemKind} {i : Nat}

theorem size_eq (l : Layout) : l.size = l.constants.length + l.params.length + l.nested.length := by
  simp [size, itemTypes, Nat.add_assoc]

theorem mem_places : (kind, i) ∈ l.places ↔ i < l.count kind := by
  cases kind <;> simp [places]

theorem base_add_lt (hi : i < l.count kind) : l.base kind + i < l.size := by
  rw [size_eq]
  cases kind <;> simp only [base, count] at hi ⊢ <;> omega

theorem slot_eq (hi : i < l.count kind) (hsize : l.size ≤ Nat.pow 2 16) : l.slot kind i = .ok (l.base kind + i) := by
  have hlt := base_add_lt hi
  rw [slot, if_pos hi, Nat.mod_eq_of_lt (by omega)]

theorem slot_eq_ok {s : Nat} (hsize : l.size ≤ Nat.pow 2 16) :
    l.slot kind i = .ok s ↔ i < l.count kind ∧ s = l.base kind + i := by
  by_cases hi : i < l.count kind
  · rw [slot_eq hi hsize, Except.ok.injEq]
    exact ⟨fun h => ⟨hi, h.symm⟩, fun h => h.2.symm⟩
  · rw [slot, if_neg hi]
    exact ⟨fun h => (nomatch h), fun h => absurd h.1 hi⟩

/-- Group after group, the positions count up from zero. -/
theorem places_base (l : Layout) : (l.places.map fun p => l.base p.1 + p.2) = List.range l.size := by
  rw [size_eq, List.range_add, List.range_add]
  simp [places, base, count, Function.comp_def, Nat.add_assoc]

/-- A sequence made of the groups has each entry of a group at the item's position. -/
theorem getElem?_groups {α : Type} {g : ItemKind → List α} (hg : ∀ kind, (g kind).length = l.count kind)
    (hi : i < l.count kind) : (g .constant ++ g .param ++ g .nested)[l.base kind + i]? = (g kind)[i]? := by
  have hconstants := hg .constant
  have hparams := hg .param
  have hgroup := hg kind
  cases kind <;> simp only [base, count] at hconstants hparams hgroup hi ⊢
  · rw [List.append_assoc, List.getElem?_append_left (by omega), Nat.zero_add]
  · rw [List.getElem?_append_left (by rw [List.length_append]; omega), List.getElem?_append_right (by omega),
      hconstants, Nat.add_sub_cancel_left]
  · rw [List.getElem?_append_right (by rw [List.length_append]; omega), List.length_append, hconstants, hparams,
      Nat.add_sub_cancel_left]

end Layout

namespace Closure

variable {c : Closure} {s : Nat} {v : Value}

theorem get_eq_ok : c.get s = .ok v ↔ c.items[s]? = some v := by
  unfold get
  split <;> simp_all

/-- A store changes the item at its position and no other. -/
theorem set_spec (hs : s < c.items.size) (v : Value) :
    ∃ c', c.set s v = .ok c' ∧ c'.get s = .ok v ∧ ∀ s', s' ≠ s → c'.get s' = c.get s' := by
  refine ⟨_, if_pos hs, ?_, fun s' hne => ?_⟩
  · rw [get_eq_ok]
    simp [hs]
  · simp [get, Array.getElem?_setIfInBounds_ne (Ne.symm hne)]

end Closure

namespace Capture

/-- The declared types of the captured items of a group. -/
def types (c : Capture) : ItemKind → List Ty
  | .constant => c.constants.map CapturedConstant.ty
  | .param => c.params.map Param.ty
  | .nested => c.nested.map NestedOf.itemType

theorem size_layout (c : Capture) (limit : Nat) : (c.layout limit).size = c.size := by
  rw [Layout.size_eq]
  simp [layout, Layout.ofTypes, size]

/-- Captured items have positions of their own, in the order of their groups; what is kept at a position is the item
and has the item's type. -/
theorem layout_slots {c : Capture} (hne : c.isEmpty = false) (hsize : c.size ≤ Nat.pow 2 16) (limit : Nat) :
    let l := c.layout limit
    -- one-to-one onto the positions, in order
    l.size = c.size ∧ (∀ kind i, (kind, i) ∈ l.places ↔ i < (c.types kind).length) ∧
    (l.places.map fun p => l.slot p.1 p.2) = (List.range l.size).map .ok ∧
    -- types
    (∀ kind i ty, (c.types kind)[i]? = some ty → ∃ s, l.slot kind i = .ok s ∧ l.itemType s = .ok ty) ∧
    -- a closure of items
    ∀ items : ItemKind → List Value, (∀ kind, (items kind).length = l.count kind) →
      ∃ closure, l.instantiate (items .constant ++ items .param ++ items .nested) = .ok closure ∧
        closure.strategy = l.strategy ∧
        (∀ kind i v, (items kind)[i]? = some v → ∃ s, l.slot kind i = .ok s ∧ closure.get s = .ok v) ∧
        ∀ kind i s v, l.slot kind i = .ok s →
          ∃ closure', closure.set s v = .ok closure' ∧ closure'.get s = .ok v ∧
            ∀ s', s' ≠ s → closure'.get s' = closure.get s' := by
  intro l
  have htypes : ∀ kind, (c.types kind).length = l.count kind := by
    intro kind
    cases kind <;> rfl
  have hl : l.size = c.size := c.size_layout limit
  have hbits : l.size ≤ Nat.pow 2 16 := by omega
  refine ⟨hl, fun kind i => by rw [Layout.mem_places, htypes], ?_, fun kind i ty hty => ?_, fun items hitems => ?_⟩
  · rw [← l.places_base, List.map_map]
    exact List.map_congr_left fun p hp => Layout.slot_eq (Layout.mem_places.1 hp) hbits
  · have hi : i < l.count kind := by
      rw [← htypes]
      exact (List.getElem?_eq_some_iff.1 hty).1
    refine ⟨_, Layout.slot_eq hi hbits, ?_⟩
    have hget : l.itemTypes[l.base kind + i]? = some ty := (Layout.getElem?_groups htypes hi).trans hty
    rw [Layout.itemType, hget]
  · have hlength : (items .constant ++ items .param ++ items .nested).length = l.size := by
      rw [Layout.size_eq, List.length_append, List.length_append, hitems, hitems, hitems]
      rfl
    have hitems_ne : items .constant ++ items .param ++ items .nested ≠ [] := by
      intro hnil
      rw [hnil, hl] at hlength
      simp [isEmpty, ← hlength] at hne
    refine ⟨⟨l.strategy, (items .constant ++ items .param ++ items .nested).toArray⟩, ?_, rfl, fun kind i v hv => ?_,
      fun kind i s v hs => Closure.set_spec ?_ v⟩
    · rw [Layout.instantiate, if_neg (by simpa using hlength), if_neg (fun h => hitems_ne h.2)]
    · have hi : i < l.count kind := by
        rw [← hitems]
        exact (List.getElem?_eq_some_iff.1 hv).1
      refine ⟨_, Layout.slot_eq hi hbits, Closure.get_eq_ok.2 ?_⟩
      rw [List.getElem?_toArray]
      exact (Layout.getElem?_groups hitems hi).trans hv
    · obtain ⟨hi, rfl⟩ := (Layout.slot_eq_ok hbits).1 hs
      rw [List.size_toArray, hlength]
      exact Layout.base_add_lt hi

/-- An array, two parameters and a lambda. -/
def fourItems : Capture where
  constants := [⟨0, .array ⟨0, .object⟩, .array .object⟩]
  params := [⟨1, "x", .bool⟩, ⟨2, "x", .str⟩]
  nested := [⟨3, .bare ⟨0, "lambda"⟩, none, ⟨[], .bool⟩⟩]

theorem layout_slots_fourItems : fourItems.isEmpty = false ∧ fourItems.size ≤ Nat.pow 2 16 ∧
    ((fourItems.layout 2).places.map fun p => (fourItems.layout 2).slot p.1 p.2) = [.ok 0, .ok 1, .ok 2, .ok 3] ∧
    ∃ s, (fourItems.layout 2).slot .param 1 = .ok s ∧ (fourItems.layout 2).itemType s = .ok .str :=
  have h := layout_slots (c := fourItems) rfl (by decide) 2
  ⟨rfl, by decide, h.2.2.1, h.2.2.2.1 .param 1 .str rfl⟩

/-- Of one item more than 16 bits can count, the last takes the position of the first. -/
theorem layout_slot_wraps :
    let c : Capture :=
      { constants := (List.range (Nat.pow 2 16 + 1)).map fun n => ⟨n, .array ⟨n, .object⟩, .array .object⟩ }
    (c.layout 16).slot .constant 0 = .ok 0 ∧ (c.layout 16).slot .constant (Nat.pow 2 16) = .ok 0 := by
  intro c
  have hcount : (c.layout 16).count .constant = Nat.pow 2 16 + 1 := by
    simp [c, layout, Layout.ofTypes, Layout.count]
  constructor
  · rw [Layout.slot, if_pos (by rw [hcount]; omega)]
    rfl
  · rw [Layout.slot, if_pos (by rw [hcount]; omega), Layout.base, Nat.zero_add, Nat.mod_self]

end Capture

end ExprCompiler
