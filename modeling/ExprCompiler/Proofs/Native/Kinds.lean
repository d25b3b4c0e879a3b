/-
The kinds of the values on the stack, as lowering follows them. Control comes to an instruction with
certain kinds along some path from the start; the native code of a unit has, wherever that happens, the
operation for the instruction and these kinds. Lowering goes over the instructions once, so what carries
the proof is that the kinds written down for a block never change: an edge to a block that is behind
finds the kinds with which that block was lowered.
-/
import ExprCompiler.Native.Lower
import ExprCompiler.Proofs.Code.Depth

namespace ExprCompiler

/-- The kind of a value that has a native form. -/
def Value.slotKind? : Value → Option SlotKind
  | .int ⟨.i64, _⟩ => some .int
  | .bool _ => some .bool
  | _ => none

namespace CodeUnit

variable (u : CodeUnit)

/-- The kind of a variable; the arguments come before the locals. -/
def slotKind? (i : Nat) : Option SlotKind :=
  (u.params ++ u.locals.toList)[i]?.bind SlotKind.ofTy?

/-- The kinds on the stack after an instruction that has a native form. -/
def kindsAfter : Instr → List SlotKind → Option (List SlotKind)
  | .nop, ks => some ks
  | .const v, ks => v.slotKind?.map (· :: ks)
  | .default ty, ks => (SlotKind.ofTy? ty).map (· :: ks)
  | .loadArg i, ks => (u.slotKind? i).map (· :: ks)
  | .loadLocal i, ks => (u.slotKind? (u.arity + i)).map (· :: ks)
  | .storeArg _, _ :: ks | .storeLocal _, _ :: ks | .pop, _ :: ks => some ks
  | .dup, k :: ks => some (k :: k :: ks)
  | .arith _ .wrap, _ :: k :: ks => some (k :: ks)
  | .negate .wrap, k :: ks | .complement, k :: ks => some (k :: ks)
  | .compare _, _ :: _ :: ks | .genericEq, _ :: _ :: ks => some (.bool :: ks)
  | .branch .always _, ks => some ks
  | .branch .ifTrue _, _ :: ks | .branch .ifFalse _, _ :: ks | .ret, _ :: ks => some ks
  | _, _ => none

/-- Control comes to an instruction with the given kinds on the stack, whichever way branches go. -/
inductive KindsAt : Nat → List SlotKind → Prop
  | start : KindsAt 0 []
  | next {pc : Nat} {i : Instr} {ks ks' : List SlotKind} (here : KindsAt pc ks) (code : u.instrs[pc]? = some i)
    (goes : i.endsFlow = false) (after : u.kindsAfter i ks = some ks') : KindsAt (pc + 1) ks'
  | jump {pc target : Nat} {kind : BranchKind} {ks ks' : List SlotKind} (here : KindsAt pc ks)
    (code : u.instrs[pc]? = some (.branch kind target)) (after : u.kindsAfter (.branch kind target) ks = some ks') :
    KindsAt target ks'

/-- The kinds on the stack suit an instruction: arithmetic is on integers, the operands of the other
operators with two operands are of one kind, what is tested is a boolean, and what is stored or returned
has the kind of the variable or of the unit. -/
def Suits : Instr → List SlotKind → Prop
  | .arith .add _, k :: k' :: _ | .arith .sub _, k :: k' :: _ | .arith .mul _, k :: k' :: _ => k = .int ∧ k' = .int
  | .arith _ _, k :: k' :: _ | .compare _, k :: k' :: _ | .genericEq, k :: k' :: _ => k = k'
  | .negate _, k :: _ => k = .int
  | .branch .ifTrue _, k :: _ | .branch .ifFalse _, k :: _ => k = .bool
  | .storeArg i, k :: _ => u.slotKind? i = some k
  | .storeLocal i, k :: _ => u.slotKind? (u.arity + i) = some k
  | .ret, k :: _ => SlotKind.ofTy? u.ret = some k
  | _, _ => True

/-- Wherever control comes, the kinds on the stack suit the instruction. -/
def KindConsistent : Prop :=
  ∀ pc ks i, u.KindsAt pc ks → u.instrs[pc]? = some i → u.Suits i ks

/-- Wherever control comes, an instruction on an argument names one that the unit has. -/
def NamesArgs : Prop :=
  ∀ pc ks i, u.KindsAt pc ks → u.instrs[pc]? = some (.loadArg i) ∨ u.instrs[pc]? = some (.storeArg i) → i < u.arity

end CodeUnit

namespace Lower

/-! ## One instruction -/

/-- The operation that stands for an instruction on a stack of the given kinds, and the kinds after it. -/
inductive Stands (s : Context) : Instr → List SlotKind → NativeOp → List SlotKind → Prop
  | nop {ks : List SlotKind} : Stands s .nop ks .nop ks
  | int {bits : BitVec 64} {ks : List SlotKind} :
    Stands s (.const (.int ⟨.i64, bits⟩)) ks (.const (.ofBitVec bits)) (.int :: ks)
  | bool {b : Bool} {ks : List SlotKind} : Stands s (.const (.bool b)) ks (.const (if b then 1 else 0)) (.bool :: ks)
  | zero {ty : Ty} {k : SlotKind} {ks : List SlotKind} (kind : SlotKind.ofTy? ty = some k) :
    Stands s (.default ty) ks (.const 0) (k :: ks)
  | loadArg {i : Nat} {k : SlotKind} {ks : List SlotKind} (kind : s.slots[i]? = some k) :
    Stands s (.loadArg i) ks (.load i) (k :: ks)
  | loadLocal {i : Nat} {k : SlotKind} {ks : List SlotKind} (kind : s.slots[s.argCount + i]? = some k) :
    Stands s (.loadLocal i) ks (.load (s.argCount + i)) (k :: ks)
  | storeArg {i : Nat} {k : SlotKind} {ks : List SlotKind} : Stands s (.storeArg i) (k :: ks) (.store i) ks
  | storeLocal {i : Nat} {k : SlotKind} {ks : List SlotKind} :
    Stands s (.storeLocal i) (k :: ks) (.store (s.argCount + i)) ks
  | dup {k : SlotKind} {ks : List SlotKind} : Stands s .dup (k :: ks) .dup (k :: k :: ks)
  | pop {k : SlotKind} {ks : List SlotKind} : Stands s .pop (k :: ks) .pop ks
  | arith {op : ArithOp} {slotOp : SlotOp} {k k' : SlotKind} {ks : List SlotKind}
    (same : Lower.slotOp op = .ok slotOp) : Stands s (.arith op .wrap) (k :: k' :: ks) (.binary slotOp) (k' :: ks)
  | negate {k : SlotKind} {ks : List SlotKind} : Stands s (.negate .wrap) (k :: ks) .negate (k :: ks)
  | flip {ks : List SlotKind} : Stands s .complement (.bool :: ks) .flip (.bool :: ks)
  | complement {ks : List SlotKind} : Stands s .complement (.int :: ks) .complement (.int :: ks)
  | compare {op : CmpOp} {k k' : SlotKind} {ks : List SlotKind} :
    Stands s (.compare op) (k :: k' :: ks) (.compare op) (.bool :: ks)
  | genericEq {k k' : SlotKind} {ks : List SlotKind} :
    Stands s .genericEq (k :: k' :: ks) (.compare .eq) (.bool :: ks)
  | jump {t : Nat} {ks : List SlotKind} : Stands s (.branch .always t) ks (.jump t) ks
  | jumpIf {t : Nat} {k : SlotKind} {ks : List SlotKind} : Stands s (.branch .ifTrue t) (k :: ks) (.jumpIf t) ks
  | jumpUnless {t : Nat} {k : SlotKind} {ks : List SlotKind} :
    Stands s (.branch .ifFalse t) (k :: ks) (.jumpUnless t) ks
  | ret {k : SlotKind} {ks : List SlotKind} : Stands s .ret (k :: ks) .ret ks

/-- Nothing that is written down about blocks gets lost. -/
def Keeps (entries entries' : EntryKinds) : Prop :=
  entries'.size = entries.size ∧ ∀ (t : Nat) ks, entries[t]?.join = some ks → entries'[t]?.join = some ks

theorem Keeps.refl (entries : EntryKinds) : Keeps entries entries := ⟨rfl, fun _ _ h => h⟩

theorem Keeps.trans {e e' e'' : EntryKinds} (h : Keeps e e') (h' : Keeps e' e'') : Keeps e e'' :=
  ⟨h'.1.trans h.1, fun t ks ht => h'.2 t ks (h.2 t ks ht)⟩

variable {entries : EntryKinds} {ks : List SlotKind} {pc : Nat} {s : Context}

/-- An edge leaves the kinds it carries written down for its target. -/
theorem edge_ok {entries' : EntryKinds} {t : Nat} (h : edge entries t ks = .ok entries') :
    Keeps entries entries' ∧ (t < entries.size → entries'[t]?.join = some ks) := by
  unfold edge at h
  split at h
  · rename_i kinds hk
    split at h
    · rename_i heq
      cases h
      exact ⟨.refl _, fun _ => by rw [hk, heq]⟩
    · cases h
  · rename_i hk
    cases h
    refine ⟨⟨by simp, fun t' ks' ht' => ?_⟩, fun ht => by simp [ht]⟩
    have hne : t ≠ t' := by
      rintro rfl
      rw [hk] at ht'
      cases ht'
    rw [Array.getElem?_setIfInBounds_ne hne]
    exact ht'

/-- Where control goes after an instruction, the kinds after it are known: they are handed on to the next
instruction, or written down for the blocks to which control may pass. -/
structure Passes (entries : EntryKinds) (pc : Nat) (i : Instr) (ks : List SlotKind) (l : Lowered) : Prop where
  keeps : Keeps entries l.entries
  after : i.target? = none → i.endsFlow = false → l.after = some ks
  target : ∀ t, i.target? = some t → t < entries.size → l.entries[t]?.join = some ks
  next : i.target?.isSome → i.endsFlow = false → pc + 1 < entries.size → l.entries[pc + 1]?.join = some ks

theorem Passes.plain {i : Instr} {op : NativeOp}
    (hi : i.target? = none) : Passes entries pc i ks ⟨op, some ks, entries⟩ where
  keeps := .refl entries
  after _ _ := rfl
  target t ht := by rw [hi] at ht; cases ht
  next ht := by rw [hi] at ht; cases ht

theorem Passes.branch {e₁ e₂ : EntryKinds} {t : Nat} {kind : BranchKind} {op : NativeOp}
    (h₁ : edge entries t ks = .ok e₁) (h₂ : edge e₁ (pc + 1) ks = .ok e₂) :
    Passes entries pc (.branch kind t) ks ⟨op, none, e₂⟩ := by
  obtain ⟨hk₁, ht₁⟩ := edge_ok h₁
  obtain ⟨hk₂, ht₂⟩ := edge_ok h₂
  refine ⟨hk₁.trans hk₂, (by simp [Instr.target?]), ?_, fun _ _ hlt => ht₂ (by rw [hk₁.1]; exact hlt)⟩
  rintro t' ⟨⟩ hlt
  exact hk₂.2 t ks (ht₁ hlt)

theorem Passes.jump {e₁ : EntryKinds} {t : Nat} {op : NativeOp}
    (h₁ : edge entries t ks = .ok e₁) : Passes entries pc (.branch .always t) ks ⟨op, none, e₁⟩ := by
  obtain ⟨hk₁, ht₁⟩ := edge_ok h₁
  refine ⟨hk₁, (by simp [Instr.target?]), ?_, by simp [Instr.endsFlow]⟩
  rintro t' ⟨⟩ hlt
  exact ht₁ hlt

theorem slotKind_ok {i : Nat} {k : SlotKind} (h : slotKind s i = .ok k) : s.slots[i]? = some k := by
  unfold slotKind at h
  split at h
  · cases h
    assumption
  · cases h

/-- A step of lowering, and the rest. -/
theorem bind_ok {α β : Type} {x : Except LowerError α} {f : α → Except LowerError β} {b : β}
    (h : x >>= f = .ok b) : ∃ a, x = .ok a ∧ f a = .ok b := by
  cases x with
  | error e => cases h
  | ok a => exact ⟨a, rfl, h⟩

/-- Lowering an instruction. -/
theorem instruction_ok {i : Instr} {l : Lowered} (h : instruction s entries pc i ks = .ok l) :
    ∃ ks', Stands s i ks l.op ks' ∧ Passes entries pc i ks' l := by
  unfold instruction at h
  dsimp only at h
  split at h
  case h_1 => cases h; exact ⟨_, .nop, .plain rfl⟩
  case h_2 => cases h; exact ⟨_, .int, .plain rfl⟩
  case h_3 => cases h; exact ⟨_, .bool, .plain rfl⟩
  case h_5 =>
    split at h
    · rename_i hk
      cases h
      exact ⟨_, .zero hk, .plain rfl⟩
    · cases h
  case h_6 =>
    obtain ⟨k, hk, h⟩ := bind_ok h
    cases h
    exact ⟨_, .loadArg (slotKind_ok hk), .plain rfl⟩
  case h_7 =>
    obtain ⟨k, hk, h⟩ := bind_ok h
    cases h
    exact ⟨_, .loadLocal (slotKind_ok hk), .plain rfl⟩
  case h_8 =>
    obtain ⟨k, -, h⟩ := bind_ok h
    cases h
    exact ⟨_, .storeArg, .plain rfl⟩
  case h_9 =>
    obtain ⟨k, -, h⟩ := bind_ok h
    cases h
    exact ⟨_, .storeLocal, .plain rfl⟩
  case h_10 => cases h; exact ⟨_, .dup, .plain rfl⟩
  case h_11 => cases h; exact ⟨_, .pop, .plain rfl⟩
  case h_12 =>
    obtain ⟨op, hop, h⟩ := bind_ok h
    cases h
    exact ⟨_, .arith hop, .plain rfl⟩
  case h_13 => cases h; exact ⟨_, .negate, .plain rfl⟩
  case h_14 => cases h; exact ⟨_, .flip, .plain rfl⟩
  case h_15 => cases h; exact ⟨_, .complement, .plain rfl⟩
  case h_16 => cases h; exact ⟨_, .compare, .plain rfl⟩
  case h_17 => cases h; exact ⟨_, .genericEq, .plain rfl⟩
  case h_18 =>
    obtain ⟨e₁, h₁, h⟩ := bind_ok h
    cases h
    exact ⟨_, .jump, .jump h₁⟩
  case h_19 =>
    obtain ⟨e₁, h₁, h⟩ := bind_ok h
    obtain ⟨e₂, h₂, h⟩ := bind_ok h
    cases h
    exact ⟨_, .jumpIf, .branch h₁ h₂⟩
  case h_20 =>
    obtain ⟨e₁, h₁, h⟩ := bind_ok h
    obtain ⟨e₂, h₂, h⟩ := bind_ok h
    cases h
    exact ⟨_, .jumpUnless, .branch h₁ h₂⟩
  case h_21 =>
    cases h
    exact ⟨_, .ret, .refl _, by simp [Instr.endsFlow], by simp [Instr.target?], by simp [Instr.target?]⟩
  all_goals cases h

/-! ## The instructions one after the other -/

/-- One instruction and the rest. If a block starts at the instruction, its kinds are those written down
for the block, and kinds that come from the instruction before are among these. -/
theorem instructions_cons {starts : Array Bool} {stack : Option (List SlotKind)}
    {ops ops' : Array NativeOp} {i : Instr} {rest : List Instr}
    (h : instructions s starts pc stack entries ops (i :: rest) = .ok ops') (hpc : pc < entries.size) :
    ∃ entries₁ here, Keeps entries entries₁ ∧ (∀ ks, stack = some ks → here = some ks) ∧
      (starts[pc]?.getD false = true → here = entries₁[pc]?.join) ∧
      match here with
      | some ks => ∃ l, instruction s entries₁ pc i ks = .ok l ∧
          instructions s starts (pc + 1) l.after l.entries (ops.push l.op) rest = .ok ops'
      | none => s.depths[pc]?.join.isSome = false ∧
          instructions s starts (pc + 1) none entries₁ (ops.push .trap) rest = .ok ops' := by
  have hgo : ∀ (here : Option (List SlotKind)) (entries₁ : EntryKinds), (match here with
      | some ks => do
        let lowered ← instruction s entries₁ pc i ks
        instructions s starts (pc + 1) lowered.after lowered.entries (ops.push lowered.op) rest
      | none =>
        if s.depths[pc]?.join.isSome then throw (LowerError.skip .enteredFromBelow)
        else instructions s starts (pc + 1) none entries₁ (ops.push .trap) rest) = .ok ops' →
      match here with
      | some ks => ∃ l, instruction s entries₁ pc i ks = .ok l ∧
          instructions s starts (pc + 1) l.after l.entries (ops.push l.op) rest = .ok ops'
      | none => s.depths[pc]?.join.isSome = false ∧
          instructions s starts (pc + 1) none entries₁ (ops.push .trap) rest = .ok ops' := by
    intro here entries₁ h
    cases here with
    | some ks => exact bind_ok h
    | none =>
      simp only at h ⊢
      split at h
      · cases h
      · exact ⟨by simp_all, h⟩
  unfold instructions at h
  cases stack with
  | none =>
    refine ⟨entries, _, .refl entries, by simp, fun hs => ?_, hgo _ _ h⟩
    rw [if_pos hs]
  | some ks =>
    simp only at h
    split at h
    · rename_i hs
      obtain ⟨entries₁, he, h⟩ := bind_ok h
      obtain ⟨hk, ht⟩ := edge_ok he
      refine ⟨entries₁, _, hk, ?_, fun _ => rfl, hgo _ _ h⟩
      rintro ks' ⟨⟩
      exact ht hpc
    · rename_i hs
      exact ⟨entries, some ks, .refl entries, fun _ hk => hk, fun hs' => absurd hs' hs, hgo (some ks) entries h⟩

/-- The kinds with which the instructions from `pc` on were lowered, and those written down for blocks in
the end. -/
structure Tracked (s : Context) (starts : Array Bool) (pc : Nat) (rest : List Instr) (ops : Array NativeOp)
    (K E : Nat → Option (List SlotKind)) : Prop where
  blocks : ∀ t, pc ≤ t → t < pc + rest.length → starts[t]?.getD false = true → K t = E t
  code : ∀ (j : Nat) i ks, rest[j]? = some i → K (pc + j) = some ks →
    ∃ entries l ks', entries.size = s.instrs.size ∧ ops[pc + j]? = some l.op ∧ Stands s i ks l.op ks' ∧
      Passes entries (pc + j) i ks' l ∧ (∀ ks', l.after = some ks' → K (pc + j + 1) = some ks') ∧
      ∀ (t : Nat) k, l.entries[t]?.join = some k → E t = some k

/-- Lowering from `pc` on. Blocks start only where the unit has a depth, so that none is passed over and
entered from below later. -/
theorem instructions_ok {starts : Array Bool}
    (hstarts : ∀ t : Nat, starts[t]?.getD false = true → s.depths[t]?.join.isSome) :
    ∀ (rest : List Instr) (pc : Nat) (stack : Option (List SlotKind)) (entries : EntryKinds)
    (ops ops' : Array NativeOp),
      instructions s starts pc stack entries ops rest = .ok ops' → ops.size = pc →
      pc + rest.length = s.instrs.size → entries.size = s.instrs.size →
      ∃ K E, (∀ ks, stack = some ks → K pc = some ks) ∧ (∀ (t : Nat) ks, entries[t]?.join = some ks → E t = some ks) ∧
        (∀ q < pc, ops'[q]? = ops[q]?) ∧ Tracked s starts pc rest ops' K E
  | [], pc, stack, entries, ops, ops', h, hops, hlen, hsize => by
    unfold instructions at h
    cases stack with
    | some ks => cases h
    | none =>
      cases h
      refine ⟨fun _ => none, fun t => entries[t]?.join, by simp, fun _ _ ht => ht, fun _ _ => rfl, ?_, ?_⟩
      · intro t h₁ h₂
        simp at h₂
        omega
      · intro j i ks hj
        simp at hj
  | i :: rest, pc, stack, entries, ops, ops', h, hops, hlen, hsize => by
    simp only [List.length_cons] at hlen
    obtain ⟨entries₁, here, hk, hstack, hstart, hrest⟩ := instructions_cons h (by omega)
    -- what is lowered later leaves the operation at `pc` as it is
    have hop : ∀ op, (∀ q < pc + 1, ops'[q]? = (ops.push op)[q]?) → ops'[pc]? = some op ∧ ∀ q < pc, ops'[q]? =
      ops[q]? := by
      intro op hq
      refine ⟨by rw [hq pc (by omega), ← hops, Array.getElem?_push_size], fun q hlt => ?_⟩
      rw [hq q (by omega), Array.getElem?_push_lt (by omega), ← Array.getElem?_eq_getElem]
    cases here with
    | some ks =>
      obtain ⟨l, hl, hrest⟩ := hrest
      obtain ⟨ks', hstands, hpasses⟩ := instruction_ok hl
      obtain ⟨K, E, hnext, hE, hold, ht⟩ := instructions_ok hstarts rest (pc + 1) l.after l.entries (ops.push l.op) ops'
        hrest (by simp [hops]) (by omega) (by rw [hpasses.keeps.1, hk.1, hsize])
      obtain ⟨hhere, hbefore⟩ := hop l.op hold
      refine ⟨fun q => if q = pc then some ks else K q, E, fun ks₀ h₀ => by simpa using hstack ks₀ h₀,
        fun t k h₀ => hE t k (hpasses.keeps.2 t k (hk.2 t k h₀)), hbefore, fun t h₁ h₂ h₃ => ?_, fun j i' k hj hK => ?_⟩
      · by_cases hpc : t = pc
        · subst hpc
          have hb := hstart h₃
          rw [if_pos rfl]
          exact (hE t ks (hpasses.keeps.2 t ks hb.symm)).symm
        · rw [if_neg hpc]
          exact ht.blocks t (by omega) (by simp only [List.length_cons] at h₂; omega) h₃
      · cases j with
        | zero =>
          simp only [List.getElem?_cons_zero, Option.some.injEq, Nat.add_zero, if_true] at hj hK
          subst hj hK
          refine ⟨entries₁, l, ks', by rw [hk.1, hsize], hhere, hstands, hpasses, fun k hk' => ?_, hE⟩
          rw [if_neg (by omega)]
          exact hnext k hk'
        | succ j =>
          have hne : ¬ pc + (j + 1) = pc := by omega
          have hne' : ¬ pc + (j + 1) + 1 = pc := by omega
          simp only [List.getElem?_cons_succ, if_neg hne, if_neg hne'] at hj hK ⊢
          rw [show pc + (j + 1) = pc + 1 + j by omega] at hK ⊢
          exact ht.code j i' k hj hK
    | none =>
      obtain ⟨hdepth, hrest⟩ := hrest
      obtain ⟨K, E, -, hE, hold, ht⟩ := instructions_ok hstarts rest (pc + 1) none entries₁ (ops.push .trap) ops'
        hrest (by simp [hops]) (by omega) (by rw [hk.1, hsize])
      obtain ⟨-, hbefore⟩ := hop .trap hold
      refine ⟨fun q => if q = pc then none else K q, E, fun ks₀ h₀ => absurd (hstack ks₀ h₀) (by simp),
        fun t k h₀ => hE t k (hk.2 t k h₀), hbefore, fun t h₁ h₂ h₃ => ?_, fun j i' k hj hK => ?_⟩
      · have hpc : t ≠ pc := by
          rintro rfl
          simp [hstarts t h₃] at hdepth
        rw [if_neg hpc]
        exact ht.blocks t (by omega) (by simp only [List.length_cons] at h₂; omega) h₃
      · cases j with
        | zero => simp at hK
        | succ j =>
          have hne : ¬ pc + (j + 1) = pc := by omega
          have hne' : ¬ pc + (j + 1) + 1 = pc := by omega
          simp only [List.getElem?_cons_succ, if_neg hne, if_neg hne'] at hj hK ⊢
          rw [show pc + (j + 1) = pc + 1 + j by omega] at hK ⊢
          exact ht.code j i' k hj hK

/-! ## Blocks -/

/-- Blocks start at the listed instructions that control reaches. -/
theorem getElem?_blocks {instrs : Array Instr} {depths : Depths} :
    (blocks instrs depths)[pc]?.getD false = true ↔
      pc < instrs.size ∧ depths[pc]?.join.isSome ∧ ∃ (q : Nat) (i : Instr), instrs[q]? = some i ∧
        pc ∈ startsAfter i q := by
  have hfold : ∀ (pcs : List Nat) (marks : Array Bool), (pcs.foldl
      (fun marks pc => if depths[pc]?.join.isSome then marks.setIfInBounds pc true else marks) marks)[pc]?.getD false =
        true ↔ marks[pc]?.getD false = true ∨ (pc < marks.size ∧ depths[pc]?.join.isSome ∧ pc ∈ pcs) := by
    intro pcs
    induction pcs with
    | nil => simp
    | cons p pcs ih =>
      intro marks
      rw [List.foldl_cons, ih]
      by_cases hd : depths[p]?.join.isSome
      · rw [if_pos hd, Array.getElem?_setIfInBounds, Array.size_setIfInBounds]
        by_cases hp : p = pc
        · subst hp
          by_cases hlt : p < marks.size <;> simp [hlt, hd]
        · have hp' : pc ≠ p := fun e => hp e.symm
          simp [hp, hp']
      · rw [if_neg hd]
        by_cases hp : p = pc
        · subst hp
          simp [hd]
        · have hp' : pc ≠ p := fun e => hp e.symm
          simp [hp']
  unfold blocks
  rw [hfold]
  have hfalse : ((Array.replicate instrs.size false)[pc]?.getD false) = false := by
    rw [Array.getElem?_replicate]
    split <;> rfl
  rw [hfalse, Array.size_replicate]
  simp only [Bool.false_eq_true, false_or, List.mem_flatMap, Prod.exists]
  refine and_congr_right fun _ => and_congr_right fun _ => ⟨?_, ?_⟩
  · rintro ⟨i, q, hmem, hstart⟩
    have := List.mem_zipIdx_iff_getElem?.1 hmem
    exact ⟨q, i, by simpa using this, hstart⟩
  · rintro ⟨q, i, hi, hstart⟩
    exact ⟨i, q, List.mem_zipIdx_iff_getElem?.2 (by simpa using hi), hstart⟩

/-! ## Units -/

theorem mapM_cons_inv {ty : Ty} {tys : List Ty} (h : (ty :: tys).mapM SlotKind.ofTy? = some ks) :
    ∃ k ks', SlotKind.ofTy? ty = some k ∧ tys.mapM SlotKind.ofTy? = some ks' ∧ ks = k :: ks' := by
  rw [List.mapM_cons] at h
  obtain ⟨k, hk, h⟩ := Option.bind_eq_some_iff.1 h
  obtain ⟨ks', hks, h⟩ := Option.bind_eq_some_iff.1 h
  cases h
  exact ⟨k, ks', hk, hks, rfl⟩

theorem getElem?_of_mapM {tys : List Ty} (h : tys.mapM SlotKind.ofTy? = some ks) (i : Nat) :
    ks[i]? = tys[i]?.bind SlotKind.ofTy? := by
  induction tys generalizing ks i with
  | nil =>
    cases h
    simp
  | cons ty tys ih =>
    obtain ⟨k, ks', hk, hks, rfl⟩ := mapM_cons_inv h
    cases i with
    | zero => simpa using hk.symm
    | succ i => simpa using ih hks i

/-- What lowering knows about a unit. -/
def contextOf (u : CodeUnit) (depths : Depths) (params locals : List SlotKind) : Context :=
  ⟨u.instrs, depths, (params ++ locals).toArray, params.length⟩

theorem length_of_mapM {tys : List Ty} (h : tys.mapM SlotKind.ofTy? = some ks) :
    ks.length = tys.length := by
  induction tys generalizing ks with
  | nil =>
    cases h
    rfl
  | cons ty tys ih =>
    obtain ⟨k, ks', -, hks, rfl⟩ := mapM_cons_inv h
    simp [ih hks]

section

variable {u : CodeUnit} {depths : Depths} {params locals : List SlotKind}

theorem getElem?_slots (hp : u.params.mapM SlotKind.ofTy? = some params)
    (hl : u.locals.toList.mapM SlotKind.ofTy? = some locals) (i : Nat) :
    (contextOf u depths params locals).slots[i]? = u.slotKind? i := by
  have hall : (u.params ++ u.locals.toList).mapM SlotKind.ofTy? = some (params ++ locals) := by
    rw [List.mapM_append, hp, hl]
    rfl
  rw [contextOf, List.getElem?_toArray, getElem?_of_mapM hall, CodeUnit.slotKind?]

/-- The kinds after an instruction are those that the unit's kinds say. -/
theorem Stands.kindsAfter (hp : u.params.mapM SlotKind.ofTy? = some params)
    (hl : u.locals.toList.mapM SlotKind.ofTy? = some locals) {i : Instr} {ks' : List SlotKind} {op : NativeOp}
    (h : Stands (contextOf u depths params locals) i ks op ks') : u.kindsAfter i ks = some ks' := by
  have harity : (contextOf u depths params locals).argCount = u.arity := length_of_mapM hp
  cases h with
  | zero kind => simp [CodeUnit.kindsAfter, kind]
  | loadArg kind =>
    rw [getElem?_slots hp hl] at kind
    simp [CodeUnit.kindsAfter, kind]
  | loadLocal kind =>
    rw [getElem?_slots hp hl, harity] at kind
    simp [CodeUnit.kindsAfter, kind]
  | _ => rfl

/-- An instruction with native form takes and leaves as many values as on the machine. -/
theorem Stands.length {i : Instr} {ks' : List SlotKind} {op : NativeOp} (h : Stands s i ks op ks') :
    ks'.length = ks.length - i.pops + i.pushes := by
  cases h <;> simp [Instr.pops, Instr.pushes]

end

end Lower

/-- The native code of a unit: wherever control comes with certain kinds, it has the operation for the
instruction there and these kinds. -/
structure NativeCode.Renders (code : NativeCode) (u : CodeUnit) (depths : Depths) (params locals : List SlotKind) :
    Prop where
  ofParams : u.params.mapM SlotKind.ofTy? = some params
  ofLocals : u.locals.toList.mapM SlotKind.ofTy? = some locals
  ofRet : SlotKind.ofTy? u.ret = some code.ret
  params_eq : code.params = params
  locals_eq : code.locals = locals.length
  ops : ∀ pc ks, u.KindsAt pc ks → ∃ i op ks', u.instrs[pc]? = some i ∧ code.ops[pc]? = some op ∧
    Lower.Stands (Lower.contextOf u depths params locals) i ks op ks'

namespace Lower

/-- Control and lowering come to each instruction with the same kinds. -/
theorem code_renders {u : CodeUnit} {params : List SlotKind} {ret : SlotKind} {code : NativeCode}
    (h : Lower.code u params ret = .ok code) (hp : u.params.mapM SlotKind.ofTy? = some params)
    (hr : SlotKind.ofTy? u.ret = some ret) : ∃ depths locals, code.Renders u depths params locals := by
  unfold Lower.code at h
  split at h
  · cases h
  · rename_i locals hl
    split at h
    · cases h
    · rename_i depths hd
      obtain ⟨ops, hops, h⟩ := bind_ok h
      cases h
      obtain ⟨hclosed, hzero, -⟩ := CodeUnit.depths_closed hd
      obtain ⟨K, E, hstart, -, -, ht⟩ := instructions_ok (fun t ht => (getElem?_blocks.1 ht).2.1) _ _ _ _ _ _ hops rfl
        (by simp) (by simp)
      refine ⟨depths, locals, hp, hl, hr, rfl, rfl, ?_⟩
      -- a block that control reaches was lowered with the kinds written down for it
      have hblock : ∀ {pc q d : Nat} {i : Instr}, u.instrs[pc]? = some i → q ∈ startsAfter i pc →
          depths.Holds (q, d) → q < u.instrs.size ∧ K q = E q := by
        intro pc q d i hi hmem hdepth
        obtain ⟨_, hq, -⟩ := hclosed _ hdepth
        refine ⟨hq.lt, ht.blocks q (by omega) (by simpa using hq.lt) (getElem?_blocks.2 ⟨hq.lt, ?_, pc, i, hi, hmem⟩)⟩
        rw [Depths.join_eq_some.2 hdepth]
        rfl
      -- control and lowering come with the same kinds, and as many as the depth says
      have hK : ∀ pc ks, u.KindsAt pc ks → K pc = some ks ∧ depths.Holds (pc, ks.length) := by
        intro pc ks hpc
        induction hpc with
        | start => exact ⟨hstart [] rfl, hzero⟩
        | @next pc i ks ks₁ _ hi hgoes hafter ih =>
          obtain ⟨entries, l, ks', hsize, -, hstands, hpasses, hnext, hE⟩ :=
            ht.code pc i ks (by simpa using hi) (by simpa using ih.1)
          rw [Nat.zero_add] at hpasses hnext
          obtain rfl := Option.some.inj (hafter.symm.trans (hstands.kindsAfter hp hl))
          obtain ⟨i', hi', hsucc⟩ := hclosed _ ih.2
          obtain rfl : i = i' := Option.some.inj (hi.symm.trans hi'.at_pc)
          have hdepth : depths.Holds (pc + 1, ks₁.length) := by
            rw [hstands.length]
            exact hsucc _ (by simp [Depths.next, Depths.successors, hgoes])
          refine ⟨?_, hdepth⟩
          rcases htarget : i.target? with _ | t
          · exact hnext ks₁ (hpasses.after htarget hgoes)
          · obtain ⟨hlt, hKE⟩ := hblock hi (by simp [startsAfter, htarget]) hdepth
            rw [hKE]
            exact hE _ _ (hpasses.next (by rw [htarget]; rfl) hgoes (by rw [hsize]; exact hlt))
        | @jump pc t kind ks ks₁ _ hi hafter ih =>
          obtain ⟨entries, l, ks', hsize, -, hstands, hpasses, -, hE⟩ :=
            ht.code pc _ ks (by simpa using hi) (by simpa using ih.1)
          obtain rfl := Option.some.inj (hafter.symm.trans (hstands.kindsAfter hp hl))
          obtain ⟨i', hi', hsucc⟩ := hclosed _ ih.2
          obtain rfl := Option.some.inj (hi.symm.trans hi'.at_pc)
          have hdepth : depths.Holds (t, ks₁.length) := by
            rw [hstands.length]
            exact hsucc _ (by simp [Depths.next, Depths.successors, Instr.target?])
          obtain ⟨hlt, hKE⟩ := hblock hi (by simp [startsAfter, Instr.target?]) hdepth
          rw [hKE]
          exact ⟨hE _ _ (hpasses.target t rfl (by rw [hsize]; exact hlt)), hdepth⟩
      intro pc ks hpc
      obtain ⟨hk, hdepth⟩ := hK pc ks hpc
      obtain ⟨i, hi, -⟩ := hclosed _ hdepth
      obtain ⟨entries, l, ks', -, hop, hstands, -⟩ := ht.code pc i ks (by simpa using hi.at_pc) (by simpa using hk)
      exact ⟨i, l.op, ks', hi.at_pc, by simpa using hop, hstands⟩

end Lower

theorem CodeUnit.lower_renders {u : CodeUnit} {n : Nat} {code : NativeCode} (h : u.lower n = .ok (.native code)) :
    ∃ depths params locals, code.Renders u depths params locals := by
  unfold lower at h
  split at h
  · cases h
  · split at h
    · cases h
    · split at h
      · rename_i params ret hp hr
        split at h
        · rename_i hcode
          cases h
          obtain ⟨depths, locals, hcode⟩ := Lower.code_renders hcode hp hr
          exact ⟨depths, params, locals, hcode⟩
        all_goals cases h
      · cases h

end ExprCompiler
