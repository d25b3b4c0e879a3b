/-
Fields under inheritance. Whether fields are declared before or after the base is named, a class has the fields of
its base in front of its own. So a field keeps its position in all classes below the one that declares it: access by
position finds that field on every instance, and the message of an exception is always in field 0.
-/
import ExprCompiler.Operation
import ExprCompiler.Member
import Mathlib.Tactic

namespace ExprCompiler

/-! ## Declarations -/

/-- A call by which a class is declared. -/
inductive ClassDraft.Call
  | field (name : String) (ty : Ty)
  | extending (base : Class)

/-- The declaration after a call. -/
def ClassDraft.call (d : ClassDraft) : Call → ClassDraft
  | .field name ty => d.field name ty
  | .extending base => d.extending base

/-- Classes that are declared by any calls over classes declared before. -/
inductive Class.Declared : Class → Prop
  | finish {name : String} {valueType : Bool} (serial : Nat) (calls : List ClassDraft.Call)
      (bases : ∀ b, .extending b ∈ calls → Class.Declared b) :
    Class.Declared ((calls.foldl ClassDraft.call { name, valueType }).finish serial)

/-- The base of a declaration is declared, and its fields are in front. -/
def ClassDraft.Inherits (d : ClassDraft) : Prop :=
  ∀ b, d.base = some b → b.Declared ∧ b.fields <+: d.fields

namespace ClassDraft.Inherits

theorem call {d : ClassDraft} (h : d.Inherits) {k : Call} (hk : ∀ b, k = .extending b → b.Declared) :
    (d.call k).Inherits := by
  cases k with
  | field name ty =>
    intro b hb
    obtain ⟨hdecl, hfields⟩ := h b hb
    exact ⟨hdecl, hfields.trans (List.prefix_append _ _)⟩
  | extending base =>
    rintro b ⟨⟩
    exact ⟨hk base rfl, List.prefix_append _ _⟩

theorem calls {ks : List Call} {d : ClassDraft} (h : d.Inherits) (hks : ∀ b, .extending b ∈ ks → b.Declared) :
    (ks.foldl ClassDraft.call d).Inherits := by
  induction ks generalizing d with
  | nil => exact h
  | cons k ks ih => exact ih (h.call fun b hb => hks b (by simp [hb])) fun b hb => hks b (List.mem_cons_of_mem k hb)

end ClassDraft.Inherits

theorem Class.Declared.base {c b : Class} (h : c.Declared) (hb : c.base = some b) :
    b.Declared ∧ b.fields <+: c.fields := by
  cases h with
  | finish serial calls bases => exact ClassDraft.Inherits.calls (fun b hb => by cases hb) bases b hb

/-- The fields of a class are in front of those of all classes below it. -/
theorem Class.Declared.fields : ∀ {c b : Class}, c.Declared → c.derivesFrom b = true → b.fields <+: c.fields
  | .mk i n v up fs, b, hc, hd => by
    unfold derivesFrom at hd
    rw [Bool.or_eq_true, beq_iff_eq] at hd
    rcases hd with rfl | hup
    · exact List.prefix_rfl
    · cases up with
      | none => cases hup
      | some p =>
        obtain ⟨hp, hfields⟩ := hc.base (b := p) rfl
        exact (Declared.fields hp hup).trans hfields

/-! ## Instances -/

namespace Heap

/-- The value is an instance of the class with all of its fields. -/
def IsInstance (h : Heap) (c : Class) : Value → Prop
  | .object o => o.cls = c ∧ c.fields.length ≤ (h.fields o).size
  | .struct d fs => d = c ∧ c.fields.length ≤ fs.length
  | _ => False

theorem zeros_eq (fs : List Field) : Field.zeros fs = fs.map Field.zero := by
  induction fs with
  | nil => rfl
  | cons f fs ih => rw [Field.zeros, ih, List.map_cons]

theorem fields_newObject (h : Heap) (c : Class) (fs : Array Value) :
    (h.newObject c fs).2.fields ⟨h.objects.size, c⟩ = fs := by
  simp [newObject, Heap.fields]

variable {h : Heap} {c : Class} {v : Value} {i : Nat}

/-- Every declared field of an instance can be read, and what is stored in it is read back. -/
theorem IsInstance.access (hv : h.IsInstance c v) (hi : i < c.fields.length) :
    (∃ x, h.loadField v i = .ok x) ∧
      ∀ w, ∃ v' h', h.storeField v i w = .ok (v', h') ∧ h'.IsInstance c v' ∧ h'.loadField v' i = .ok w := by
  cases v with
  | object o =>
    obtain ⟨rfl, hsize⟩ := hv
    have hlt : i < (h.fields o).size := by omega
    refine ⟨⟨_, by rw [loadField, Array.getElem?_eq_getElem hlt]⟩, fun w => ⟨_, _, if_pos hlt, ?_⟩⟩
    have hset : (h.setField o i w).fields o = (h.fields o).setIfInBounds i w := by
      simp only [Heap.fields, setField, Array.getElem?_modify, if_true]
      cases h.objects[o.id]? <;> simp
    exact ⟨⟨rfl, by simpa [hset] using hsize⟩, by simp [loadField, hset, hlt]⟩
  | struct d fs =>
    obtain ⟨rfl, hsize⟩ := hv
    have hlt : i < fs.length := by omega
    refine ⟨⟨_, by rw [loadField, List.getElem?_eq_getElem hlt]⟩, fun w => ?_⟩
    exact ⟨_, _, if_pos hlt, ⟨rfl, by simpa using hsize⟩, by simp [loadField, hlt]⟩
  | _ => exact hv.elim

/-- A new instance has what was given for a field, else the zero of the field's type. -/
theorem newInstance_fields (h : Heap) (c : Class) (given : List Value) :
    (h.newInstance c given).2.IsInstance c (h.newInstance c given).1 ∧ ∀ (i : Nat) (f : Field), c.fields[i]? = some f →
      (h.newInstance c given).2.loadField (h.newInstance c given).1 i = .ok (given[i]?.getD f.zero) := by
  have hall : ∀ (i : Nat) (f : Field), c.fields[i]? = some f →
      (given ++ (Field.zeros c.fields).drop given.length)[i]? = some (given[i]?.getD f.zero) := by
    intro i f hf
    by_cases hi : i < given.length
    · simp [List.getElem?_append_left hi, hi]
    · simp [List.getElem?_append_right (Nat.le_of_not_lt hi), zeros_eq, Nat.add_sub_of_le (Nat.le_of_not_lt hi), hf, hi]
  have hlen : c.fields.length ≤ (given ++ (Field.zeros c.fields).drop given.length).length := by
    simp [zeros_eq]
    omega
  unfold newInstance
  split
  · exact ⟨⟨rfl, hlen⟩, fun i f hf => by simp [loadField, hall i f hf]⟩
  · refine ⟨⟨rfl, ?_⟩, fun i f hf => ?_⟩
    · rw [fields_newObject]
      simpa using hlen
    · rw [newObject, loadField, ← newObject, fields_newObject]
      simp [hall i f hf]

/-- The message given to a new exception is in field 0 and is what the exception is asked for. -/
theorem newException_message (hc : c.derivesFrom .exception = true) (h0 : c.fields[0]? = some (.mk "message" .str))
    (h : Heap) (message : String) : ∃ v h', h.newException c message = .ok (v, h') ∧ h'.IsInstance c v ∧
      h'.loadField v 0 = .ok (.str message) ∧ v.exceptionMessage? h' = some message := by
  obtain ⟨fs, hfs⟩ : ∃ fs, c.fields = .mk "message" .str :: fs := by
    cases hf : c.fields with
    | nil => simp [hf] at h0
    | cons f fs => exact ⟨fs, by simpa [hf] using h0⟩
  refine ⟨.object ⟨h.objects.size, c⟩, (h.newObject c (.str message :: Field.zeros fs).toArray).2, ?_,
    ⟨rfl, ?_⟩, ?_, ?_⟩
  · rw [newException, hfs, Field.zeros]
    rfl
  · rw [fields_newObject, hfs]
    simp [zeros_eq]
  · rw [loadField, fields_newObject]
    rfl
  · rw [Value.exceptionMessage?, if_pos hc, fields_newObject]
    rfl

end Heap

/-! ## Positions below a class -/

theorem Member.fieldAt_ok {c : Class} {i : Nat} {f : Field} : Member.fieldAt c i = .ok f ↔ c.fields[i]? = some f := by
  unfold Member.fieldAt
  split <;> simp_all

/-- A field of a class has the same position in all classes below it. There it is found by name, can be read and stored
on every instance, and starts with what a new instance was given for it; below the exceptions, field 0 is the message.
-/
theorem Class.Declared.keeps_positions {c b : Class} (hc : c.Declared) (hb : c.derivesFrom b = true) :
    b.fields <+: c.fields ∧ (∀ name i, b.fieldIndex? name = some i → c.fieldIndex? name = some i) ∧
      (∀ i f, Member.fieldAt b i = .ok f → Member.fieldAt c i = .ok f ∧
        (∀ h v, Heap.IsInstance h c v → (∃ x, h.loadField v i = .ok x) ∧
          ∀ w, ∃ v' h', h.storeField v i w = .ok (v', h') ∧ h'.IsInstance c v' ∧ h'.loadField v' i = .ok w) ∧
        ∀ h given, (Heap.newInstance h c given).2.loadField (h.newInstance c given).1 i =
          .ok (given[i]?.getD f.zero)) ∧
      (b = .exception → Member.fieldAt c 0 = .ok (.mk "message" .str) ∧ ∀ h message, ∃ v h',
        Heap.newException h c message = .ok (v, h') ∧ h'.IsInstance c v ∧ h'.loadField v 0 = .ok (.str message) ∧
          v.exceptionMessage? h' = some message) := by
  have hpre := hc.fields hb
  have hat : ∀ (i : Nat) (f : Field), b.fields[i]? = some f → c.fields[i]? = some f := by
    intro i f hf
    obtain ⟨fs, hfs⟩ := hpre
    obtain ⟨hi, -⟩ := List.getElem?_eq_some_iff.1 hf
    rw [← hfs, List.getElem?_append_left hi, hf]
  refine ⟨hpre, fun name i hi => ?_, fun i f hf => ?_, ?_⟩
  · obtain ⟨fs, hfs⟩ := hpre
    unfold fieldIndex? at hi ⊢
    rw [← hfs, List.findIdx?_append, hi]
    rfl
  · have hf := hat i f (Member.fieldAt_ok.1 hf)
    obtain ⟨hi, -⟩ := List.getElem?_eq_some_iff.1 hf
    exact ⟨Member.fieldAt_ok.2 hf, fun h v hv => hv.access hi, fun h given => (h.newInstance_fields c given).2 i f hf⟩
  · rintro rfl
    have h0 := hat 0 (.mk "message" .str) rfl
    exact ⟨Member.fieldAt_ok.2 h0, Heap.newException_message hb h0⟩

/-- Below the exceptions with a field that is declared before the base, and with one that is declared after it. -/
theorem Class.Declared.keeps_positions_timeout :
    let failure := (((({ name := "IOFailure" } : ClassDraft).field "path" .str).extending .exception).finish 7)
    let timeout := (((({ name := "Timeout" } : ClassDraft).extending failure).field "fatal" .bool).finish 8)
    Member.fieldAt timeout 1 = .ok (.mk "path" .str) ∧ timeout.fieldIndex? "path" = some 1 ∧
      Member.fieldAt timeout 0 = .ok (.mk "message" .str) := by
  intro failure timeout
  have hexception : Class.exception.Declared := .finish 0 [.field "message" .str] (by simp)
  have hfailure : failure.Declared := .finish 7 [.field "path" .str, .extending .exception] (by simpa)
  have htimeout : timeout.Declared := .finish 8 [.extending failure, .field "fatal" .bool] (by simpa)
  obtain ⟨-, hname, hat, -⟩ := htimeout.keeps_positions (b := failure) (by decide)
  obtain ⟨-, -, -, hmessage⟩ := htimeout.keeps_positions (b := .exception) (by decide)
  exact ⟨(hat 1 _ rfl).1, hname "path" 1 (by decide), (hmessage rfl).1⟩

end ExprCompiler
