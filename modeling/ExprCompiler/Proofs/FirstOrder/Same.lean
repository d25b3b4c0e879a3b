/-
The bridge of the first-order language. Without lambdas and without structs, the machine and the evaluator
hold the same values, none of them an address, in the same world, and throw the same exceptions. What the
host and function values may do is stated once, as a set of worlds that they do not leave.
-/
import ExprCompiler.Proofs.FirstOrder.Portable
import ExprCompiler.Proofs.FirstOrder.Watch
import ExprCompiler.Proofs.Simulation.Instructions
import ExprCompiler.Proofs.Simulation.Nodes

namespace ExprCompiler

/-! ## Worlds without addresses -/

/-- What an act on the world comes to: a value with `P` or an exception that is not null, and a world of
`I`. -/
structure Sound {α : Type} (F : Callable → Prop) (I : World → Prop) (P : α → Prop) (r : Except Stop α × World) :
    Prop where
  world : I r.2
  value : ∀ a, r.1 = .ok a → P a
  thrown : ∀ v, r.1 = .error (.thrown v) → v.Portable F ∧ v ≠ .null

/-- In the worlds of `I` no address is stored; the host and the functions of `F` come by none and throw
no null, and nothing leads out of `I`. -/
structure Tame (lib : Library) (inv : Invoker) (F : Callable → Prop) (I : World → Prop) : Prop where
  heap : ∀ w, I w → w.heap.Portable F
  write : ∀ w h, I w → h.Portable F → I { w with heap := h }
  host : ∀ fn receiver args w, I w → receiver.Portable F → (∀ v ∈ args, v.Portable F) →
    Sound F I (Value.Portable F) (w.hosted lib inv fn receiver args)
  invoke : ∀ f args w, I w → F f → (∀ v ∈ args, v.Portable F) → Sound F I (Value.Portable F) (inv f args w)

theorem Sound.mono {α : Type} {F : Callable → Prop} {I : World → Prop} {P Q : α → Prop} {r : Except Stop α × World}
    (h : Sound F I P r) (hPQ : ∀ a, P a → Q a) : Sound F I Q r :=
  ⟨h.world, fun a ha => hPQ a (h.value a ha), h.thrown⟩

namespace Tame

variable {α : Type} {lib : Library} {inv : Invoker} {F : Callable → Prop} {I : World → Prop} {P : α → Prop} {w : World}
  (hT : Tame lib inv F I)

include hT

theorem sound_settled (hw : I w) {r : Except Cause α} (h : ∀ a, r = .ok a → P a) :
    Sound F I P (w.settled r) := by
  cases r with
  | ok a =>
    refine ⟨hw, ?_, by rintro v ⟨⟩⟩
    rintro b ⟨⟩
    exact h a rfl
  | error c =>
    refine ⟨hT.write w _ hw ((hT.heap w hw).raise c), by rintro a ⟨⟩, ?_⟩
    rintro v ⟨⟩
    exact ⟨.object _, by rintro ⟨⟩⟩

theorem sound_attempted (hw : I w) {r : Except Failure α} (h : ∀ a, r = .ok a → P a) :
    Sound F I P (w.attempted r) := by
  rcases r with (c | d) | a
  · have hc : ∀ b : α, Except.error c = .ok b → P b := by rintro b ⟨⟩
    exact hT.sound_settled hw hc
  · exact ⟨hw, by rintro a ⟨⟩, by rintro v ⟨⟩⟩
  · refine ⟨hw, ?_, by rintro v ⟨⟩⟩
    rintro b ⟨⟩
    exact h a rfl

theorem sound_allocated (hw : I w) {r : α × Heap} (ha : P r.1) (hh : r.2.Portable F) :
    Sound F I P (w.allocated r) := by
  refine ⟨hT.write w r.2 hw hh, ?_, by rintro v ⟨⟩⟩
  rintro b ⟨⟩
  exact ha

theorem sound_built (hw : I w) {r : Except Failure (α × Heap)}
    (h : ∀ x, r = .ok x → P x.1 ∧ x.2.Portable F) : Sound F I P (w.built r) := by
  cases r with
  | ok x => exact hT.sound_allocated hw (h x rfl).1 (h x rfl).2
  | error e => exact hT.sound_attempted hw (by rintro a ⟨⟩)

theorem sound_hostedOn (hw : I w) {fn : HostRef} {receiver : Value} {args : List Value}
    (hr : receiver.Portable F) (ha : ∀ v ∈ args, v.Portable F) :
    Sound F I (Value.Portable F) (w.hostedOn lib inv fn receiver args) := by
  unfold World.hostedOn
  split
  · exact hT.sound_settled hw (by rintro a ⟨⟩)
  · exact hT.host fn receiver args w hw hr ha

theorem sound_invoked (hw : I w) {target : Value} {args : List Value} (ht : target.Portable F)
    (ha : ∀ v ∈ args, v.Portable F) : Sound F I (Value.Portable F) (w.invoked inv target args) := by
  unfold World.invoked
  rcases hf : target.asCallable with c | f
  · exact hT.sound_settled hw (by rintro a ⟨⟩)
  · obtain rfl : target = .func f := by
      cases target <;> cases hf
      rfl
    exact hT.invoke f args w hw ht.callable ha

theorem sound_throws (hw : I w) {v : Value} (hv : v.Portable F) :
    Sound F I P (w.throws v) := by
  obtain ⟨hthrown, hne, hheap⟩ := (hT.heap w hw).thrown hv
  refine ⟨hT.write w _ hw hheap, by rintro a ⟨⟩, ?_⟩
  rintro u ⟨⟩
  exact ⟨hthrown, hne⟩

end Tame

/-! ## The bridge -/

/-- The overloads that code is emitted with, what both sides call, and the functions and worlds that occur. -/
structure Setting where
  operators : Overloads
  lib : Library
  inv : Invoker
  F : Callable → Prop
  I : World → Prop

/-- The meaning of trees to the code. -/
abbrev Setting.meaning (S : Setting) : Tree → Meaning :=
  Tree.asCode S.operators

/-- The worlds and functions of a setting keep addresses out. -/
abbrev Setting.Tame (S : Setting) : Prop :=
  ExprCompiler.Tame S.lib S.inv S.F S.I

/-- Both sides hold the same values, in the same world, and trees mean what they mean to code. -/
def Bridge.same (S : Setting) : Bridge where
  Stage := Unit
  value _ _ v a := v = a ∧ a.Portable S.F
  value_mono _ h := h
  world _ w wE := w = wE ∧ S.I wE
  thrown v := v.Portable S.F ∧ v ≠ .null
  ends _ stop w stop' wE := stop = stop' ∧ w = wE ∧ S.I wE ∧ ∀ v, stop' = .thrown v → v.Portable S.F ∧ v ≠ .null
  machine := ⟨S.lib, S.inv, none⟩
  eval handling := ⟨S.lib, S.inv, none, handling⟩
  meaning := S.meaning
  machineExcused _ := False
  evalExcused _ := False

namespace Same

variable {S : Setting} {ctx : EmitContext} {α : Type} {n : Nat} {ty ty' : Ty} {usage : Usage}

theorem not_excused {P : Stop → Prop} {r : Except Stop α × Activation × World} : ¬ (Bridge.same S).Excused P r := by
  rintro (⟨stop, h, -⟩ | ⟨stop, h, -⟩) <;> exact h

theorem hasZero (ty : Ty) : (Bridge.same S).HasZero ty := fun _ => ⟨rfl, ty.portable_zero⟩

theorem widens (ty ty' : Ty) : (Bridge.same S).Widens ty ty' := fun _ _ _ h => h

theorem tests (ty : Ty) : (Bridge.same S).Tests ty := by
  rintro κ v a ⟨rfl, -⟩
  rfl

theorem holds_iff {κ : (Bridge.same S).Stage} {xs : List (Ty × Value)} {vs : List Value} :
    (Bridge.same S).Holds κ xs vs ↔ vs = xs.map Prod.snd ∧ ∀ x ∈ xs, x.2.Portable S.F := by
  unfold Bridge.Holds
  induction xs generalizing vs with
  | nil => simp
  | cons x xs ih =>
    rw [List.forall₂_cons_left_iff]
    constructor
    · rintro ⟨v, us, ⟨rfl, hx⟩, hus, rfl⟩
      obtain ⟨rfl, hxs⟩ := ih.1 hus
      exact ⟨rfl, List.forall_mem_cons.2 ⟨hx, hxs⟩⟩
    · rintro ⟨rfl, hall⟩
      obtain ⟨hx, hxs⟩ := List.forall_mem_cons.1 hall
      exact ⟨x.2, xs.map Prod.snd, ⟨rfl, hx⟩, ih.2 ⟨rfl, hxs⟩, rfl⟩

/-- An instruction and a computation of the evaluator that act on the world alike. -/
theorem act {i : Instr} {before : List (Ty × Value)} {e : EvalM α} {after : α → List (Ty × Value)} (vs : List Value)
    (hplain : i.isPlain = true) (hflow : i.endsFlow = false) (hb : before.map Prod.snd = vs)
    (hpops : i.pops = vs.length) (hpushes : i.pushes = n)
    (h : (∀ v ∈ vs, v.Portable S.F) → ∃ op,
      MachineM.Performs ⟨S.lib, S.inv, none⟩ i vs op (fun a => (after a).map Prod.snd) ∧
      (∀ handling, e.OnWorld ⟨S.lib, S.inv, none, handling⟩ op) ∧
      ∀ w, S.I w → Sound S.F S.I (fun a => (after a).length = n ∧ ∀ x ∈ after a, x.2.Portable S.F) (op w)) :
    (Bridge.same S).Code ctx before n (EmitM.emit i) e after := by
  have hlen : i.pops = before.length := by rw [hpops, ← hb, List.length_map]
  refine Bridge.Sim.perform hplain ((EmitM.Emits.emit i hplain).cast hlen hpushes) (.inl hflow) fun κ us _ hus => ?_
  obtain ⟨rfl, hbefore⟩ := holds_iff.1 hus
  have hportable : ∀ v ∈ vs, v.Portable S.F := by
    rw [← hb]
    exact List.forall_mem_map.2 hbefore
  obtain ⟨op, hperf, heval, hsound⟩ := h hportable
  refine ⟨α, op, _, by rw [hb]; exact hperf, ?_⟩
  rintro handling vars w wE ⟨rfl, hw⟩
  have hsound := hsound w hw
  right
  rw [show e ((Bridge.same S).eval handling) (vars, w) = _ from heval handling vars w]
  rcases hop : op w with ⟨stop | a, w'⟩ <;> rw [hop] at hsound
  · exact ⟨rfl, (), stop, w', le_rfl, rfl, rfl, rfl, hsound.world, fun v hv => hsound.thrown v (by rw [hv])⟩
  · obtain ⟨hlen', hafter⟩ := hsound.value a rfl
    refine ⟨rfl, (), a, w', le_rfl, rfl, by rw [List.length_map, hlen'], holds_iff.2 ⟨rfl, hafter⟩, rfl, hsound.world⟩

variable {i : Instr} {before : List (Ty × Value)}

/-- An instruction that leaves a value unless its type is void. -/
theorem act_leaves {e : EvalM Value} (vs : List Value) (hplain : i.isPlain = true) (hflow : i.endsFlow = false)
    (hb : before.map Prod.snd = vs) (hpops : i.pops = vs.length) (hpushes : i.pushes = ty.count)
    (h : (∀ v ∈ vs, v.Portable S.F) → ∃ op,
      MachineM.Performs ⟨S.lib, S.inv, none⟩ i vs op (fun v => if ty.isVoid then [] else [v]) ∧
      (∀ handling, e.OnWorld ⟨S.lib, S.inv, none, handling⟩ op) ∧ ∀ w, S.I w →
        Sound S.F S.I (Value.Portable S.F) (op w)) :
    (Bridge.same S).Code ctx before ty.count (EmitM.emit i) e ty.leaves := by
  have hleaves : (fun v => (ty.leaves v).map Prod.snd) = fun v => if ty.isVoid then [] else [v] := by
    funext v
    unfold Ty.leaves
    split <;> rfl
  refine act vs hplain hflow hb hpops hpushes fun hvs => ?_
  obtain ⟨op, hperf, heval, hsound⟩ := h hvs
  refine ⟨op, by rw [hleaves]; exact hperf, heval, fun w hw => (hsound w hw).mono fun v hv => ?_⟩
  refine ⟨Ty.length_leaves ty v, fun x hx => ?_⟩
  unfold Ty.leaves at hx
  split at hx
  · cases hx
  · obtain rfl := List.mem_singleton.1 hx
    exact hv

/-- An instruction that leaves one value. -/
theorem act_one {e : EvalM Value} (vs : List Value) (hplain : i.isPlain = true) (hflow : i.endsFlow = false)
    (hb : before.map Prod.snd = vs) (hpops : i.pops = vs.length) (hpushes : i.pushes = 1)
    (h : (∀ v ∈ vs, v.Portable S.F) → ∃ op,
      MachineM.Performs ⟨S.lib, S.inv, none⟩ i vs op (fun v => [v]) ∧
      (∀ handling, e.OnWorld ⟨S.lib, S.inv, none, handling⟩ op) ∧ ∀ w, S.I w →
        Sound S.F S.I (Value.Portable S.F) (op w)) :
    (Bridge.same S).Code ctx before 1 (EmitM.emit i) e fun v => [(ty, v)] := by
  refine act vs hplain hflow hb hpops hpushes fun hvs => ?_
  obtain ⟨op, hperf, heval, hsound⟩ := h hvs
  exact ⟨op, hperf, heval, fun w hw => (hsound w hw).mono fun v hv => ⟨rfl, by simpa using hv⟩⟩

/-- An instruction that leaves nothing. -/
theorem act_none {e : EvalM α} (vs : List Value) (hplain : i.isPlain = true) (hflow : i.endsFlow = false)
    (hb : before.map Prod.snd = vs) (hpops : i.pops = vs.length) (hpushes : i.pushes = 0)
    (h : (∀ v ∈ vs, v.Portable S.F) → ∃ op,
      MachineM.Performs ⟨S.lib, S.inv, none⟩ i vs op (fun _ : α => []) ∧
      (∀ handling, e.OnWorld ⟨S.lib, S.inv, none, handling⟩ op) ∧ ∃ P, ∀ w, S.I w → Sound S.F S.I P (op w)) :
    (Bridge.same S).Code ctx before 0 (EmitM.emit i) e fun _ => [] := by
  refine act vs hplain hflow hb hpops hpushes fun hvs => ?_
  obtain ⟨op, hperf, heval, P, hsound⟩ := h hvs
  exact ⟨op, hperf, heval, fun w hw => (hsound w hw).mono fun _ _ => ⟨rfl, by simp⟩⟩

/-! ## Operators -/

/-- An operation on one value. -/
theorem unary {v : Value} {g : Value → Except Cause Value} (hT : S.Tame)
    (hi : MachineM.effect i = MachineM.unary g) (hplain : i.isPlain = true) (hflow : i.endsFlow = false)
    (hpops : i.pops = 1) (hpushes : i.pushes = 1) (hg : ∀ u, v.Portable S.F → g v = .ok u → u.Portable S.F) :
    (Bridge.same S).Code ctx [(ty, v)] 1 (EmitM.emit i) (Act.settle (g v)) fun u => [(ty', u)] := by
  refine act_one [v] hplain hflow rfl hpops hpushes fun hv => ?_
  have hv : v.Portable S.F := hv v List.mem_cons_self
  exact ⟨_, MachineM.performs_unary hi v, fun _ => Act.onWorld_settle (g v),
    fun w hw => hT.sound_settled hw fun u hu => hg u hv hu⟩

/-- An operation on two values. -/
theorem binary {tl tr : Ty} {l r : Value} {g : Value → Value → Except Cause Value} (hT : S.Tame)
    (hi : MachineM.effect i = MachineM.binary g) (hplain : i.isPlain = true) (hflow : i.endsFlow = false)
    (hpops : i.pops = 2) (hpushes : i.pushes = 1) (hg : ∀ u, g l r = .ok u → u.Portable S.F) :
    (Bridge.same S).Code ctx [(tr, r), (tl, l)] 1 (EmitM.emit i) (Act.settle (g l r)) fun u => [(ty, u)] := by
  refine act_one [r, l] hplain hflow rfl hpops hpushes fun _ => ?_
  exact ⟨_, MachineM.performs_binary hi l r, fun _ => Act.onWorld_settle (g l r),
    fun w hw => hT.sound_settled hw fun u hu => hg u hu⟩

end Same

end ExprCompiler
