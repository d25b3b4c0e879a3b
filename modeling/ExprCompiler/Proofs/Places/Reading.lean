/-
Reads through the storage of a receiver. An access expression is built from tokens, immediate constants, fields,
elements of arrays, and assignments to tokens and fields. The evaluator takes a copy of a struct and reads a member of
the copy. Code forms the address of the struct, computes arguments, and reads at the address then; a field of a value
that is not an object has no address. The evaluator is followed here by one that reads in this way. The two come to the
same if the receivers of addressed fields are objects, and if the arguments of an index read leave the receiver's
storage alone.
-/
import ExprCompiler.Proofs.Places.Code

namespace ExprCompiler

/-! ## Expressions -/

/-- An expression of accesses and assignments. -/
inductive Tree.IsAccess : Tree → Prop
  | constant {id : NodeId} {ty : Ty} {v : Value} (hv : v.isImmediate = true) : IsAccess (.node id ty (.constant v))
  | parameter {id : NodeId} {ty : Ty} {p : Param} : IsAccess (.node id ty (.parameter p))
  | static {id : NodeId} {ty : Ty} {r : StaticRef} : IsAccess (.node id ty (.member none (.static r)))
  | field {id : NodeId} {ty : Ty} {r : Tree} {c : Class} {i : Nat} (h : r.IsAccess) :
    IsAccess (.node id ty (.member (some r) (.field c i)))
  | element {id : NodeId} {ty : Ty} {array index : Tree} (ha : array.IsAccess) (hi : index.IsAccess) :
    IsAccess (.node id ty (.arrayIndex array index))
  | assignParameter {id id' : NodeId} {ty ty' : Ty} {p : Param} {v : Tree} (hv : v.IsAccess) :
    IsAccess (.node id ty (.assign (.node id' ty' (.parameter p)) v))
  | assignStatic {id id' : NodeId} {ty ty' : Ty} {r : StaticRef} {v : Tree} (hv : v.IsAccess) :
    IsAccess (.node id ty (.assign (.node id' ty' (.member none (.static r))) v))
  | assignField {id id' : NodeId} {ty ty' : Ty} {r v : Tree} {c : Class} {i : Nat} (hr : r.IsAccess) (hv : v.IsAccess) :
    IsAccess (.node id ty (.assign (.node id' ty' (.member (some r) (.field c i))) v))

/-- A read of a member of a struct, with as many arguments as an indexer takes. -/
inductive Tree.IsRead : Tree → Prop
  | field {id : NodeId} {ty : Ty} {r : Tree} {c : Class} {i : Nat} (hs : r.ty.isStruct = true) (h : r.IsAccess) :
    IsRead (.node id ty (.member (some r) (.field c i)))
  | property {id : NodeId} {ty : Ty} {r : Tree} {p : Property} (hs : r.ty.isStruct = true) (h : r.IsAccess) :
    IsRead (.node id ty (.member (some r) (.property p)))
  | index {id : NodeId} {ty : Ty} {r : Tree} {ix : Indexer} {args : List Tree} (hs : r.ty.isStruct = true)
    (h : r.IsAccess) (hargs : ∀ a ∈ args, a.IsAccess) (hlen : args.length = ix.params.length) :
    IsRead (.node id ty (.index r ix args))

/-! ## The evaluator that reads late -/

/-- The meaning of a node, and the storage from which members of the node are read. -/
structure Reading extends Meaning where
  spot : EvalM (Place EvalVar)

namespace Reading

open EvalM

/-- What to do about a field of a value that is neither an object nor null. -/
abbrev Stray := Value → Nat → EvalM (Place EvalVar)

/-- A child without its storage for reads. -/
def plain (c : Tree.Child Reading) : Evaluated :=
  ⟨c.node, .mk fun _ => c.meaning.toMeaning⟩

/-- Where a receiver is read: the stored struct, or a copy of a reference. -/
def receiver (c : Tree.Child Reading) : EvalM (Place EvalVar) := do
  if c.ty.isStruct then c.meaning.spot else return .root (.temp (← c.meaning.value))

/-- The value of a node. Receivers are read at their places, after the arguments. -/
def result (ty : Ty) (shape : Shape (Tree.Child Reading)) : EvalM Value :=
  match shape with
  | .member (some r) (.field _ i) => do
    let v ← (← receiver r).read access
    Act.attempt ((← Act.heap).loadField v i)
  | .member (some r) (.property p) => do
    let v ← (← receiver r).read access
    hostValue p.getter v []
  | .index r ix args => do
    let place ← receiver r
    let args ← Eval.values (args.map plain)
    let v ← place.read access
    if v.isNull then Act.raise .nullReference
    else hostValue ix.getter v args
  | shape => Eval.value ty (shape.map plain)

/-- The place of a field that is read. -/
def fieldSpot (stray : Stray) (receiver : Value) (index : Nat) : EvalM (Place EvalVar) :=
  match receiver with
  | .object o => return .objectField o index
  | .null => Act.raise .nullReference
  | v => stray v index

/-- The storage from which members of a node are read. -/
def storage (stray : Stray) (ty : Ty) (shape : Shape (Tree.Child Reading)) : EvalM (Place EvalVar) :=
  match shape with
  | .member (some r) (.field _ i) => do
    if r.ty.isStruct then return .field (← r.meaning.spot) i
    else fieldSpot stray (← r.meaning.value) i
  | shape => Eval.place ty (shape.map plain)

end Reading

/-- The meaning of a tree whose receivers are read at their places. -/
def Tree.reading (stray : Reading.Stray) : Tree → Reading :=
  Tree.fold fun _ ty shape =>
    { value := Reading.result ty shape
      place := Eval.place ty (shape.map Reading.plain)
      assign := Eval.assign ty (shape.map Reading.plain)
      spot := Reading.storage stray ty shape }

theorem Tree.reading_node (stray : Reading.Stray) (id : NodeId) (ty : Ty) (s : Shape Tree) :
    (Tree.node id ty s).reading stray =
      { value := Reading.result ty (s.map (.of (Tree.reading stray)))
        place := Eval.place ty ((s.map (.of (Tree.reading stray))).map Reading.plain)
        assign := Eval.assign ty ((s.map (.of (Tree.reading stray))).map Reading.plain)
        spot := Reading.storage stray ty (s.map (.of (Tree.reading stray))) } := Tree.fold_node _ id ty s

/-- An assignment has no storage but a copy of its value. -/
theorem Tree.reading_assign (stray : Reading.Stray) (id : NodeId) (ty : Ty) (target v : Tree) :
    (Tree.node id ty (.assign target v)).reading stray =
      { value := (target.reading stray).assign (v.reading stray).value
        place := do return .root (.temp (← (target.reading stray).assign (v.reading stray).value))
        assign := Eval.assign ty (.assign (Reading.plain (.of (Tree.reading stray) target))
          (Reading.plain (.of (Tree.reading stray) v)))
        spot := do return .root (.temp (← (target.reading stray).assign (v.reading stray).value)) } :=
  Tree.reading_node stray id ty (.assign target v)

namespace Tree

variable {id : NodeId} {ty : Ty} {r : Tree} {c : Class} {i : Nat} {stray : Reading.Stray}

theorem reading_field_struct (hs : r.ty.isStruct = true) :
    ((Tree.node id ty (.member (some r) (.field c i))).reading stray).place =
        (do return .field (← (r.reading stray).place) i) ∧
      ((Tree.node id ty (.member (some r) (.field c i))).reading stray).spot =
        (do return .field (← (r.reading stray).spot) i) := by
  rw [reading_node]
  exact ⟨if_pos hs, if_pos hs⟩

theorem reading_field_reference (hs : ¬ r.ty.isStruct = true) :
    ((Tree.node id ty (.member (some r) (.field c i))).reading stray).place =
        (do Eval.fieldPlace (← (r.reading stray).value) i) ∧
      ((Tree.node id ty (.member (some r) (.field c i))).reading stray).spot =
        (do Reading.fieldSpot stray (← (r.reading stray).value) i) := by
  rw [reading_node]
  exact ⟨if_neg hs, if_neg hs⟩

theorem meaning_field_struct (hs : r.ty.isStruct = true) :
    (Tree.node id ty (.member (some r) (.field c i))).meaning.place = (do return .field (← r.meaning.place) i) := by
  rw [meaning_node]
  exact if_pos hs

theorem meaning_field_reference (hs : ¬ r.ty.isStruct = true) :
    (Tree.node id ty (.member (some r) (.field c i))).meaning.place = (do Eval.fieldPlace (← r.meaning.value) i) := by
  rw [meaning_node]
  exact if_neg hs

theorem meaning_field : (Tree.node id ty (.member (some r) (.field c i))).meaning.value = (do
    let v ← r.meaning.value
    Act.attempt ((← Act.heap).loadField v i)) := by
  rw [meaning_node]
  rfl

end Tree

/-! ## Stray fields -/

namespace Reading

open EvalM

variable {d : Defect}

/-- One reading comes to what another comes to, unless it stops with a defect. -/
structure Follows (d : Defect) (r r' : Reading) : Prop where
  value : EvalM.Follows d r.value r'.value
  place : EvalM.Follows d r.place r'.place
  spot : EvalM.Follows d r.spot r'.spot

/-- The stop at a field of a value that is neither an object nor null. -/
abbrev watch (d : Defect) : Stray := fun _ _ => Act.defect d

theorem follows_fieldSpot (stray : Stray) (v : Value) (i : Nat) :
    EvalM.Follows d (fieldSpot (watch d) v i) (fieldSpot stray v i) := by
  intro ctx s
  cases v with
  | object o | null => exact .inr rfl
  | _ => exact .inl rfl

/-- The field of a value that is neither an object nor null has no address. -/
abbrev unaddressable : Stray := fun v i => Act.misuse (.unaddressable v i)

theorem fieldSpot_unaddressable (v : Value) (i : Nat) : fieldSpot unaddressable v i = Eval.fieldPlace v i := by
  cases v <;> rfl

theorem follows_receiver {t : Tree} {stray : Stray} (h : Follows d (t.reading (watch d)) (t.reading stray)) :
    EvalM.Follows d (receiver (.of (Tree.reading (watch d)) t)) (receiver (.of (Tree.reading stray) t)) := by
  simp only [receiver, Tree.Child.ty_of, Tree.Child.meaning_of]
  exact .choice h.spot (h.value.bind fun v => .refl _)

end Reading

namespace Tree

open EvalM Reading

variable {d : Defect} {stray : Stray} {t : Tree}

theorem follows_assign {id : NodeId} {ty : Ty} {target v : Tree}
    (h : EvalM.Follows d ((target.reading (watch d)).assign (v.reading (watch d)).value)
      ((target.reading stray).assign (v.reading stray).value)) :
    Reading.Follows d ((Tree.node id ty (.assign target v)).reading (watch d))
      ((Tree.node id ty (.assign target v)).reading stray) := by
  rw [reading_assign, reading_assign]
  exact ⟨h, h.bind fun a => .refl _, h.bind fun a => .refl _⟩

/-- To stop at stray fields changes nothing but that. -/
theorem IsAccess.follows (h : t.IsAccess) : Reading.Follows d (t.reading (watch d)) (t.reading stray) := by
  induction h with
  | constant hv | parameter | static =>
    simp only [reading_node, Shape.map, storage]
    exact ⟨.refl _, .refl _, .refl _⟩
  | @field id ty r c i h ih =>
    refine ⟨?_, ?_, ?_⟩
    · rw [reading_node, reading_node]
      exact (follows_receiver ih).bind fun place => .refl _
    · by_cases hs : r.ty.isStruct = true
      · rw [(reading_field_struct hs).1, (reading_field_struct hs).1]
        exact ih.place.bind fun b => .refl _
      · rw [(reading_field_reference hs).1, (reading_field_reference hs).1]
        exact ih.value.bind fun v => .refl _
    · by_cases hs : r.ty.isStruct = true
      · rw [(reading_field_struct hs).2, (reading_field_struct hs).2]
        exact ih.spot.bind fun b => .refl _
      · rw [(reading_field_reference hs).2, (reading_field_reference hs).2]
        exact ih.value.bind fun v => follows_fieldSpot stray v i
  | element ha hi iha ihi =>
    simp only [reading_node, Shape.map, storage, result, Eval.value, Eval.place]
    refine ⟨iha.value.bind fun a => ihi.value.bind fun i => .refl _, ?_, ?_⟩
    · exact iha.value.bind fun a => ihi.value.bind fun i => .refl _
    · exact iha.value.bind fun a => ihi.value.bind fun i => .refl _
  | assignParameter hv ih =>
    refine follows_assign ?_
    simp only [reading_node, Shape.map, Eval.assign]
    exact (EvalM.Follows.refl _).bind fun var => ih.value.bind fun a => .refl _
  | assignStatic hv ih =>
    refine follows_assign ?_
    simp only [reading_node, Shape.map, Eval.assign]
    exact ih.value.bind fun a => .refl _
  | assignField hr hv ihr ihv =>
    refine follows_assign ?_
    simp only [reading_node, Shape.map, Eval.assign, Evaluated.receiver, Tree.Child.ty]
    refine EvalM.Follows.bind (.choice ihr.place (ihr.value.bind fun a => .refl _)) fun place => ?_
    exact ihv.value.bind fun a => .refl _

end Tree

/-! ## Reading and evaluation -/

theorem Heap.lt_of_elementAt {h : Heap} {array index : Value} {a : ArrayRef} {i : Nat}
    (hat : h.elementAt array index = .ok (a, i)) : i < (h.items a).size := by
  unfold Heap.elementAt at hat
  rcases ha : array.asArray with c | a' <;> simp only [ha, bind, Except.bind] at hat
  · cases hat
  rcases hi : index.position with c | i' <;> simp only [hi] at hat
  · cases hat
  split at hat
  · cases hat
    assumption
  · cases hat

/-- An element is what is read at its place. -/
theorem EvalM.arrayGet_eq (array index : Value) :
    (do Act.settle ((← Act.heap).arrayGet array index) : EvalM Value) = (do
      let (a, i) ← Act.settle ((← Act.heap).elementAt array index)
      (Place.element a i).read access) := by
  funext ctx s
  rw [Act.bind_ok (Act.heap_apply _ _), Act.bind_ok (Act.heap_apply _ _)]
  have hget : s.2.heap.arrayGet array index = (s.2.heap.elementAt array index).bind
      fun r => .ok ((s.2.heap.items r.1)[r.2]?.getD .null) := rfl
  rw [hget]
  rcases hat : s.2.heap.elementAt array index with c | ⟨a, i⟩
  · exact (Act.bind_error (Act.raise_apply c ctx s) _).symm
  · have hread : (Place.element a i).read access ctx s = (.ok ((s.2.heap.items a)[i]?.getD .null), s) := by
      rw [Place.read, Act.bind_ok (Act.heap_apply _ _), Array.getElem?_eq_getElem (Heap.lt_of_elementAt hat)]
      rfl
    exact hread.symm

namespace Reading

open EvalM

variable {d : Defect}

/-- A reading comes to what the evaluator comes to, unless it stops with a defect: the storage for reads is the place of
the node, and holds its value. -/
structure Grounds (d : Defect) (r : Reading) (m : Meaning) : Prop where
  value : EvalM.Follows d r.value m.value
  place : EvalM.Follows d r.place m.place
  spot : EvalM.Follows d r.spot m.place
  read : ∀ ctx s, (r.spot ctx s).1 = .error (.defect d) ∨ m.value ctx s = (m.place >>= fun b => b.read access) ctx s

/-- A node that has no storage but a copy of its value. -/
theorem Grounds.of_copy {r : Reading} {m : Meaning} (hr : r.place = do return .root (.temp (← r.value)))
    (hspot : r.spot = r.place) (hm : m.place = do return .root (.temp (← m.value)))
    (h : EvalM.Follows d r.value m.value) : Grounds d r m where
  value := h
  place := by
    rw [hr, hm]
    exact h.bind fun a => .refl _
  spot := by
    rw [hspot, hr, hm]
    exact h.bind fun a => .refl _
  read ctx s := by
    rw [hm, bind_assoc]
    exact .inr (congrFun (congrFun (bind_pure m.value).symm ctx) s)

/-- What is read at the place of a struct is its value, unless the reading stops. -/
theorem Grounds.follows {α : Type} {r : Reading} {m : Meaning} (h : Grounds d r m) (f : Value → EvalM α) :
    EvalM.Follows d (do let v ← (← r.spot).read access; f v) (m.value >>= f) := by
  intro ctx s
  rcases h.spot ctx s with hd | hspot
  · exact .inl (Follows.error_bind hd)
  rcases h.read ctx s with hd | hread
  · exact .inl (Follows.error_bind hd)
  · right
    rw [Act.bind_congr hread, bind_assoc]
    exact Act.bind_congr hspot _

/-- The receiver of a read, read at its place. -/
theorem Grounds.receiver {α : Type} {t : Tree} (h : Grounds d (t.reading (watch d)) t.meaning) (f : Value → EvalM α) :
    EvalM.Follows d (do let v ← (← receiver (.of (Tree.reading (watch d)) t)).read access; f v)
    (t.meaning.value >>= f) := by
  unfold Reading.receiver
  cases hs : t.ty.isStruct with
  | true =>
    simp only [Tree.Child.ty_of, Tree.Child.meaning_of, hs, if_true]
    exact h.follows f
  | false =>
    simp only [Tree.Child.ty_of, Tree.Child.meaning_of, hs, Bool.false_eq_true, if_false, bind_assoc, pure_bind]
    exact h.value.bind fun v => .refl _

end Reading

namespace Tree

open EvalM Reading

variable {d : Defect} {t : Tree}

theorem grounds_assign {id : NodeId} {ty : Ty} {target v : Tree}
    (h : EvalM.Follows d ((target.reading (watch d)).assign (v.reading (watch d)).value)
      (target.meaning.assign v.meaning.value)) :
    Grounds d ((Tree.node id ty (.assign target v)).reading (watch d))
    (Tree.node id ty (.assign target v)).meaning := by
  rw [reading_assign, meaning_node]
  exact .of_copy rfl rfl rfl h

/-- Unless it stops at a stray field, an access expression that is read late comes to what the evaluator comes to. -/
theorem IsAccess.grounds (h : t.IsAccess) : Grounds d (t.reading (watch d)) t.meaning := by
  induction h with
  | constant hv | static =>
    rw [reading_node, meaning_node]
    exact .of_copy rfl rfl rfl (.refl _)
  | parameter =>
    rw [reading_node, meaning_node]
    refine ⟨.refl _, .refl _, .refl _, fun ctx s => .inr ?_⟩
    exact (congrFun (congrFun (bind_assoc _ _ _) ctx) s).symm
  | element ha hi iha ihi =>
    rw [reading_node, meaning_node]
    have hplace := iha.value.bind fun a => ihi.value.bind fun i => EvalM.Follows.refl (d := d) (do
      let (a, i) ← Act.settle ((← Act.heap).elementAt a i)
      return (.element a i : Place EvalVar))
    refine ⟨iha.value.bind fun a => ihi.value.bind fun i => .refl _, hplace, hplace, fun ctx s => .inr ?_⟩
    simp only [Shape.map, Eval.value, Eval.place, bind_assoc, arrayGet_eq, pure_bind]
  | @field id ty r c i h ih =>
    have hvalue : EvalM.Follows d ((Tree.node id ty (.member (some r) (.field c i))).reading (watch d)).value
        (Tree.node id ty (.member (some r) (.field c i))).meaning.value := by
      rw [reading_node, meaning_field]
      exact ih.receiver _
    by_cases hs : r.ty.isStruct = true
    · refine ⟨hvalue, ?_, ?_, fun ctx s => ?_⟩
      · rw [(reading_field_struct hs).1, meaning_field_struct hs]
        exact ih.place.bind fun b => .refl _
      · rw [(reading_field_struct hs).2, meaning_field_struct hs]
        exact ih.spot.bind fun b => .refl _
      · rw [(reading_field_struct hs).2, meaning_field, meaning_field_struct hs, bind_assoc]
        refine (ih.read ctx s).imp Follows.error_bind fun hread => ?_
        rw [Act.bind_congr hread, bind_assoc]
        rfl
    · refine ⟨hvalue, ?_, ?_, fun ctx s => ?_⟩
      · rw [(reading_field_reference hs).1, meaning_field_reference hs]
        exact ih.value.bind fun v => .refl _
      · rw [(reading_field_reference hs).2, meaning_field_reference hs]
        refine ih.value.bind fun v => ?_
        rw [← fieldSpot_unaddressable]
        exact follows_fieldSpot _ v i
      · rw [(reading_field_reference hs).2, meaning_field, meaning_field_reference hs, bind_assoc]
        rcases ih.value ctx s with hd | hsame
        · exact .inl (Follows.error_bind hd)
        rcases hv : r.meaning.value ctx s with ⟨stop | v, s'⟩
        · exact .inr (by rw [Act.bind_error hv, Act.bind_error hv])
        · rw [Act.bind_ok (hsame.trans hv), Act.bind_ok hv, Act.bind_ok hv]
          cases v with
          | object o | null => exact .inr rfl
          | _ => exact .inl rfl
  | assignParameter hv ih =>
    refine grounds_assign ?_
    rw [reading_node, meaning_node]
    exact (EvalM.Follows.refl _).bind fun var => ih.value.bind fun a => .refl _
  | assignStatic hv ih =>
    refine grounds_assign ?_
    rw [reading_node, meaning_node]
    exact ih.value.bind fun a => .refl _
  | assignField hr hv ihr ihv =>
    refine grounds_assign ?_
    rw [reading_node, meaning_node]
    refine EvalM.Follows.bind (.choice ihr.place (ihr.value.bind fun a => .refl _)) fun place => ?_
    exact ihv.value.bind fun a => .refl _

/-- The values of a list of trees. -/
def meanings (ts : List Tree) : EvalM (List Value) :=
  ts.mapM fun t => t.meaning.value

/-- The evaluation of an index read's arguments leaves what is stored at the receiver's place as it is: the receiver may
be read after them as well as before. -/
def KeepsReceiver (t : Tree) (ctx : EvalContext) (s : Activation × World) : Prop :=
  match t.shape with
  | .index r _ args => ∀ place s', r.meaning.place ctx s = (.ok place, s') →
      (do
        let v ← place.read access
        let vs ← meanings args
        return (v, vs)) ctx s' =
      (do
        let vs ← meanings args
        let v ← place.read access
        return (v, vs)) ctx s'
  | _ => True

/-- Where a field is read in place, its receiver is an object or null: a run that would stop elsewhere does not stop. -/
def ReadsObjects (t : Tree) (ctx : EvalContext) (s : Activation × World) : Prop :=
  ∃ d, ((t.reading (watch d)).value ctx s).1 ≠ .error (.defect d)

theorem values_plain (m : Tree → Reading) (ts : List Tree) :
    Eval.values ((ts.map (.of m)).map plain) = ts.mapM fun t => (m t).value := by
  unfold Eval.values
  rw [List.mapM_map, List.mapM_map]
  rfl

theorem reading_index (stray : Stray) {id : NodeId} {ty : Ty} {r : Tree} {ix : Indexer} {args : List Tree} :
    ((Tree.node id ty (.index r ix args)).reading stray).value = (do
      let place ← receiver (.of (Tree.reading stray) r)
      let vs ← args.mapM fun t => (t.reading stray).value
      let v ← place.read access
      if v.isNull then Act.raise .nullReference else hostValue ix.getter v vs) := by
  rw [reading_node, ← values_plain]
  rfl

theorem meaning_index {id : NodeId} {ty : Ty} {r : Tree} {ix : Indexer} {args : List Tree} :
    (Tree.node id ty (.index r ix args)).meaning.value = (do
      let v ← r.meaning.value
      let vs ← meanings args
      if v.isNull then Act.raise .nullReference else hostValue ix.getter v vs) := by
  have hvalues : Eval.values (args.map (.of Tree.meaning)) = meanings args := by
    unfold Eval.values meanings
    rw [List.mapM_map]
    rfl
  rw [meaning_node, ← hvalues]
  rfl

theorem IsRead.follows {stray : Stray} (h : t.IsRead) :
    EvalM.Follows d (t.reading (watch d)).value (t.reading stray).value := by
  cases h with
  | field hs h | property hs h =>
    rw [reading_node, reading_node]
    exact (follows_receiver h.follows).bind fun place => .refl _
  | index hs h hargs hlen =>
    rw [reading_index, reading_index]
    exact (follows_receiver h.follows).bind fun place =>
      (Follows.values _ fun a ha => (hargs a ha).follows.value).bind fun vs => .refl _

/-- A read whose receiver is read late comes to what the evaluator comes to. -/
theorem IsRead.reading_eq {stray : Stray} {ctx : EvalContext} {s : Activation × World} (h : t.IsRead)
    (hobjects : t.ReadsObjects ctx s) (hkeeps : t.KeepsReceiver ctx s) :
    (t.reading stray).value ctx s = t.meaning.value ctx s := by
  obtain ⟨d, hd⟩ := hobjects
  have hfollows : EvalM.Follows d (t.reading (watch d)).value (t.reading stray).value := h.follows
  rw [← (hfollows ctx s).resolve_left hd]
  cases h with
  | field hs h => exact (h.field.grounds.value ctx s).resolve_left hd
  | @property id ty r p hs h =>
    rw [reading_node] at hd ⊢
    rw [meaning_node]
    exact (h.grounds.receiver (fun v => hostValue p.getter v []) ctx s).resolve_left hd
  | @index id ty r ix args hs h hargs hlen =>
    have hkeeps : ∀ place s', r.meaning.place ctx s = (.ok place, s') → _ := hkeeps
    have hreceiver : receiver (.of (Tree.reading (watch d)) r) = (r.reading (watch d)).spot := if_pos hs
    rw [reading_index, hreceiver] at hd ⊢
    rw [meaning_index]
    have hspot := (h.grounds.spot ctx s).resolve_left fun hdd => hd (Follows.error_bind hdd)
    have hread := (h.grounds.read ctx s).resolve_left fun hdd => hd (Follows.error_bind hdd)
    rcases hplace : r.meaning.place ctx s with ⟨stop | place, s'⟩
    · rw [Act.bind_error hplace] at hread
      rw [Act.bind_error (hspot.trans hplace), Act.bind_error hread]
    · rw [Act.bind_ok hplace] at hread
      rw [Act.bind_ok (hspot.trans hplace)] at hd ⊢
      have hargs : EvalM.Follows d (args.mapM fun t => (t.reading (watch d)).value) (meanings args) :=
        .values args fun a ha => (hargs a ha).grounds.value
      have hlate := (hargs.bind fun vs => EvalM.Follows.refl (place.read access >>= fun v =>
        if v.isNull then Act.raise .nullReference else hostValue ix.getter v vs)) ctx s'
      rw [hlate.resolve_left hd, Act.bind_congr hread]
      -- the receiver is read after the arguments instead of before them
      have hswap := Act.bind_congr (hkeeps place s' hplace) fun p =>
        (if p.1.isNull then Act.raise .nullReference else hostValue ix.getter p.1 p.2 : EvalM Value)
      simpa only [bind_assoc, pure_bind] using hswap.symm

end Tree

end ExprCompiler
