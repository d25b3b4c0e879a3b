/-
The depths that exploring a unit finds form a closed map: the start and the handlers' entries are in
it, each instruction in it has its operands, and whatever follows an instruction in it is in it with
the depth that the instruction leaves. Exploring works through a list of points; its fuel is used up
only by points that were new or known.
-/
import ExprCompiler.Code.Depth
import Mathlib.Tactic

namespace ExprCompiler

/-- Where flow ends nothing is left for the next instruction. -/
theorem Instr.pushes_of_endsFlow (i : Instr) (h : i.endsFlow = true) : i.pushes = 0 := by
  unfold endsFlow at h
  split at h
  · rfl
  · rfl
  · rfl
  · cases h

namespace Depths

/-- The map has this depth at this point. -/
def Holds (ds : Depths) (p : Point) : Prop :=
  ds[p.1]? = some (some p.2)

/-- The instruction at a point has its operands there, leaves a depth that fits a word, and returns with one
value. -/
structure Admits (instrs : Array Instr) (p : Point) (i : Instr) : Prop where
  at_pc : instrs[p.1]? = some i
  operands : i.pops ≤ p.2
  fits : p.2 - i.pops + i.pushes < limit instrs
  returns : i = .ret → p.2 = 1

/-- The points that follow a point at which an instruction stands. -/
def next (i : Instr) (p : Point) : List Point :=
  successors i p.1 (p.2 - i.pops + i.pushes)

variable {ds : Depths} {instrs : Array Instr} {p : Point}

theorem join_eq_some {pc d : Nat} : ds[pc]?.join = some d ↔ ds.Holds (pc, d) := by
  unfold Holds
  cases ds[pc]? <;> simp

theorem join_eq_none {pc : Nat} : ds[pc]?.join = none ↔ ∀ d, ¬ ds.Holds (pc, d) := by
  simp only [← join_eq_some, Option.eq_none_iff_forall_ne_some, ne_eq]

/-! ## One visit -/

/-- What a visit does: it meets a known point, or records a new one and gives its successors. -/
theorem visit_ok {ds' : Depths} {more : List Point} (h : visit instrs ds p = .ok (ds', more)) :
    (ds.Holds p ∧ ds' = ds ∧ more = []) ∨
    (∃ i, Admits instrs p i ∧ (∀ d, ¬ ds.Holds (p.1, d)) ∧
      ds' = ds.setIfInBounds p.1 (some p.2) ∧ more = next i p) := by
  obtain ⟨pc, d⟩ := p
  unfold visit at h
  simp only at h
  split at h
  · cases h
  · rename_i i hi
    split at h
    · rename_i seen hs
      split at h
      · rename_i hd
        subst hd
        cases h
        exact .inl ⟨join_eq_some.1 hs, rfl, rfl⟩
      · cases h
    · rename_i hn
      split at h
      · cases h
      rename_i hpop
      split at h
      · cases h
      rename_i hfits
      split at h
      · by_cases hd : d = 1
        · subst hd
          simp only [ne_eq, not_true_eq_false, and_false, if_false] at h
          cases h
          exact .inr ⟨.ret, ⟨hi, Nat.not_lt.1 hpop, Nat.not_le.1 hfits, fun _ => rfl⟩, join_eq_none.1 hn, rfl, rfl⟩
        · simp [hd] at h
      · rename_i hret
        simp only [Bool.false_eq_true, false_and, if_false] at h
        cases h
        exact .inr ⟨i, ⟨hi, Nat.not_lt.1 hpop, Nat.not_le.1 hfits, fun e => absurd e hret⟩, join_eq_none.1 hn, rfl, rfl⟩

theorem holds_setIfInBounds {q : Point} (hp : p.1 < ds.size) :
    Holds (ds.setIfInBounds p.1 (some p.2)) q ↔ q = p ∨ (q.1 ≠ p.1 ∧ ds.Holds q) := by
  obtain ⟨pc, d⟩ := p
  obtain ⟨pc', d'⟩ := q
  unfold Holds
  simp only at hp ⊢
  rw [Array.getElem?_setIfInBounds]
  by_cases h : pc = pc'
  · subst h
    simp [hp, eq_comm]
  · have h' : pc' ≠ pc := fun e => h e.symm
    simp [h, h']

/-- The number of instructions without a depth. -/
def unknown (ds : Depths) : Nat :=
  ds.toList.countP Option.isNone

theorem unknown_setIfInBounds {pc d : Nat} (hpc : pc < ds.size) (hn : ∀ d, ¬ ds.Holds (pc, d)) :
    unknown (ds.setIfInBounds pc (some d)) + 1 = unknown ds := by
  have hnone : ds[pc] = none := by
    rcases he : ds[pc] with _ | e
    · rfl
    · exact absurd (show ds.Holds (pc, e) by unfold Holds; simp [hpc, he]) (hn e)
  have hpos : 0 < ds.toList.countP Option.isNone :=
    List.countP_pos_iff.2 ⟨none, by rw [← hnone]; exact Array.getElem_mem_toList hpc, rfl⟩
  have hset := List.countP_set (p := Option.isNone) (l := ds.toList) (i := pc) (a := some d)
    (by simpa using hpc)
  rw [Array.getElem_toList, hnone] at hset
  unfold unknown
  rw [Array.toList_setIfInBounds, hset]
  simp only [Option.isNone_none, Option.isNone_some, if_true, Bool.false_eq_true, if_false]
  omega

/-! ## The worklist -/

/-- What holds between two visits: every known point admits its instruction, and what follows it is
known or still to be looked at. -/
def Pending (instrs : Array Instr) (ds : Depths) (work : List Point) : Prop :=
  ∀ p, ds.Holds p → ∃ i, Admits instrs p i ∧ ∀ q ∈ next i p, ds.Holds q ∨ q ∈ work

/-- A map that nothing is left to be added to. -/
def Closed (instrs : Array Instr) (ds : Depths) : Prop :=
  ∀ p, ds.Holds p → ∃ i, Admits instrs p i ∧ ∀ q ∈ next i p, ds.Holds q

theorem Admits.lt {i : Instr} (h : Admits instrs p i) : p.1 < instrs.size := by
  by_contra hge
  have := h.at_pc
  rw [Array.getElem?_eq_none (by omega)] at this
  cases this

theorem length_next (i : Instr) (p : Point) : (next i p).length ≤ 2 := by
  unfold next successors
  cases i.endsFlow <;> cases i.target? <;> simp

/-- A visit keeps the invariant, and uses up what it adds to the work. -/
theorem visit_pending {ds' : Depths} {work more : List Point}
    (hs : ds.size = instrs.size) (hp : Pending instrs ds (p :: work)) (h : visit instrs ds p = .ok (ds', more)) :
    Pending instrs ds' (more ++ work) ∧ ds'.size = instrs.size ∧ ds'.Holds p ∧ (∀ q, ds.Holds q → ds'.Holds q) ∧
      (more ++ work).length + 2 * ds'.unknown + 1 ≤ (p :: work).length + 2 * ds.unknown := by
  rcases visit_ok h with ⟨hk, rfl, rfl⟩ | ⟨i, ha, hnew, rfl, rfl⟩
  · refine ⟨fun q hq => ?_, hs, hk, fun q hq => hq, by simp⟩
    obtain ⟨i, hi, hn⟩ := hp q hq
    refine ⟨i, hi, fun r hr => ?_⟩
    rcases hn r hr with h1 | h1
    · exact .inl h1
    · rcases List.mem_cons.1 h1 with rfl | h1
      · exact .inl hk
      · exact .inr h1
  · have hlt : p.1 < ds.size := hs ▸ ha.lt
    have hset : ∀ q, Holds (ds.setIfInBounds p.1 (some p.2)) q ↔ q = p ∨ (q.1 ≠ p.1 ∧ ds.Holds q) :=
      fun q => holds_setIfInBounds hlt
    have hmono : ∀ q, ds.Holds q → Holds (ds.setIfInBounds p.1 (some p.2)) q := by
      intro q hq
      refine (hset q).2 (.inr ⟨fun e => hnew q.2 ?_, hq⟩)
      rw [← e]; exact hq
    refine ⟨fun q hq => ?_, by simpa using hs, (hset p).2 (.inl rfl), hmono, ?_⟩
    · rcases (hset q).1 hq with rfl | ⟨-, hq⟩
      · exact ⟨i, ha, fun r hr => .inr (List.mem_append_left _ hr)⟩
      · obtain ⟨j, hj, hn⟩ := hp q hq
        refine ⟨j, hj, fun r hr => ?_⟩
        rcases hn r hr with h1 | h1
        · exact .inl (hmono r h1)
        · rcases List.mem_cons.1 h1 with rfl | h1
          · exact .inl ((hset r).2 (.inl rfl))
          · exact .inr (List.mem_append_right _ h1)
    · have h1 := unknown_setIfInBounds (d := p.2) hlt hnew
      have h2 := length_next i p
      simp only [List.length_append, List.length_cons]
      omega

/-- With enough fuel the worklist ends in a closed map that has all points it started with. -/
theorem explore_closed :
    ∀ (fuel : Nat) (ds ds' : Depths) (work : List Point), ds.size = instrs.size → Pending instrs ds work →
      work.length + 2 * ds.unknown ≤ fuel → explore instrs fuel ds work = .ok ds' →
      Closed instrs ds' ∧ (∀ q ∈ work, ds'.Holds q) ∧ ∀ q, ds.Holds q → ds'.Holds q
  | fuel, ds, ds', [], hs, hp, hf, h => by
    have : ds' = ds := by cases fuel <;> (unfold explore at h; cases h; rfl)
    subst this
    refine ⟨fun p h => ?_, by simp, fun q hq => hq⟩
    obtain ⟨i, hi, hn⟩ := hp p h
    exact ⟨i, hi, fun q hq => (hn q hq).resolve_right (by simp)⟩
  | 0, ds, ds', p :: work, hs, hp, hf, h => by
    simp at hf
  | fuel + 1, ds, ds', p :: work, hs, hp, hf, h => by
    unfold explore at h
    split at h
    · cases h
    · rename_i ds₁ more hv
      obtain ⟨hp₁, hs₁, hhere, hmono, hlen⟩ := visit_pending hs hp hv
      obtain ⟨hc, hw, hk⟩ := explore_closed fuel ds₁ ds' (more ++ work) hs₁ hp₁ (by omega) h
      refine ⟨hc, fun q hq => ?_, fun q hq => hk q (hmono q hq)⟩
      rcases List.mem_cons.1 hq with rfl | hq
      · exact hk _ hhere
      · exact hw q (List.mem_append_right _ hq)

/-! ## Units without a problem -/

/-- A map that has, with every point, an instruction that the point admits and what follows it. -/
def Consistent (instrs : Array Instr) (D : Nat → Option Nat) : Prop :=
  ∀ p : Point, D p.1 = some p.2 → ∃ i, Admits instrs p i ∧ ∀ q ∈ next i p, D q.1 = some q.2

/-- A visit to a point of a consistent map finds nothing wrong and leads to points of the map. -/
theorem visit_consistent {D : Nat → Option Nat} (hD : Consistent instrs D)
    (hds : ∀ p, ds.Holds p → D p.1 = some p.2) (hp : D p.1 = some p.2) :
    ∃ ds' more, visit instrs ds p = .ok (ds', more) ∧ (∀ q, ds'.Holds q → D q.1 = some q.2) ∧
      ∀ q ∈ more, D q.1 = some q.2 := by
  obtain ⟨pc, d⟩ := p
  obtain ⟨i, hi, hnext⟩ := hD _ hp
  have hpc : instrs[pc]? = some i := hi.at_pc
  have hpops : i.pops ≤ d := hi.operands
  have hfits : d - i.pops + i.pushes < limit instrs := hi.fits
  have hreturns : i = .ret → d = 1 := hi.returns
  unfold visit
  simp only [hpc]
  rcases hj : ds[pc]?.join with _ | seen
  · have hnew : ∀ q, Holds (ds.setIfInBounds pc (some d)) q → D q.1 = some q.2 := by
      intro q hq
      by_cases hlt : pc < ds.size
      · rcases (holds_setIfInBounds (p := (pc, d)) hlt).1 hq with rfl | ⟨-, hq⟩
        · exact hp
        · exact hds q hq
      · rw [Array.setIfInBounds, dif_neg hlt] at hq
        exact hds q hq
    simp only
    rw [if_neg (by omega), if_neg (Nat.not_le.2 hfits)]
    split
    · rw [if_neg (by simp [hreturns rfl])]
      exact ⟨_, _, rfl, hnew, hnext⟩
    · rw [if_neg (by simp)]
      exact ⟨_, _, rfl, hnew, hnext⟩
  · have hseen : seen = d := by
      have := hds _ (join_eq_some.1 hj)
      simp only at this hp
      rw [this] at hp
      exact Option.some.inj hp
    simp only [hseen, if_true]
    exact ⟨_, _, rfl, hds, by simp⟩

/-- Exploring from points of a consistent map finds nothing wrong. -/
theorem explore_consistent {D : Nat → Option Nat} (hD : Consistent instrs D) :
    ∀ (fuel : Nat) (ds : Depths) (work : List Point), (∀ p, ds.Holds p → D p.1 = some p.2) →
      (∀ p ∈ work, D p.1 = some p.2) → ∃ ds', explore instrs fuel ds work = .ok ds'
  | 0, ds, work, _, _ => ⟨ds, by cases work <;> rfl⟩
  | fuel + 1, ds, [], _, _ => ⟨ds, rfl⟩
  | fuel + 1, ds, p :: work, hds, hw => by
    obtain ⟨ds₁, more, hv, hds₁, hmore⟩ := visit_consistent hD hds (hw p List.mem_cons_self)
    obtain ⟨ds', h⟩ := explore_consistent hD fuel ds₁ (more ++ work) hds₁ fun q hq => by
      rcases List.mem_append.1 hq with hq | hq
      · exact hmore q hq
      · exact hw q (List.mem_cons_of_mem p hq)
    exact ⟨ds', by rw [explore, hv]; exact h⟩

/-! ## From nothing known -/

theorem not_holds_replicate {n : Nat} : ¬ Holds (Array.replicate n none) p := by
  unfold Holds
  simp [Array.getElem?_replicate]

theorem unknown_replicate (n : Nat) : unknown (Array.replicate n none) = n := by
  simp [unknown, List.countP_replicate]

end Depths

namespace CodeUnit

/-- Exploring starts if the handlers' depths fit a word. -/
theorem depths_eq_explore {u : CodeUnit} (h : ∀ e ∈ u.handlers, e.entryDepth < Depths.limit u.instrs) :
    u.depths = Depths.explore u.instrs (2 * u.instrs.size + u.handlers.length + 1)
      (Array.replicate u.instrs.size none) u.entryPoints := by
  rw [depths, if_neg]
  simpa using h

theorem entryDepth_lt_limit {u : CodeUnit} {ds : Depths} (h : u.depths = .ok ds) :
    ∀ e ∈ u.handlers, e.entryDepth < Depths.limit u.instrs := by
  unfold depths at h
  split at h
  · cases h
  · rename_i hfit
    simpa using hfit

/-- The depths of a unit are a closed map that has the start and the entries of all handlers. -/
theorem depths_closed {u : CodeUnit} {ds : Depths} (h : u.depths = .ok ds) :
    Depths.Closed u.instrs ds ∧ ds.Holds (0, 0) ∧ ∀ e ∈ u.handlers, ds.Holds (e.target, e.entryDepth) := by
  have hstart : Depths.Pending u.instrs (Array.replicate u.instrs.size none) u.entryPoints :=
    fun p hp => absurd hp Depths.not_holds_replicate
  obtain ⟨hc, hw, -⟩ := Depths.explore_closed _ _ ds u.entryPoints (by simp) hstart
    (by rw [Depths.unknown_replicate]; simp [entryPoints]; omega) (depths_eq_explore (entryDepth_lt_limit h) ▸ h)
  refine ⟨hc, hw _ (by simp [entryPoints]), fun e he => hw _ ?_⟩
  exact List.mem_append_left _ (List.mem_map.2 ⟨e, List.mem_reverse.2 he, rfl⟩)

/-- A unit has depths if a consistent map has its start and the entries of its handlers. -/
theorem depths_isOk {u : CodeUnit} {D : Nat → Option Nat} (hD : Depths.Consistent u.instrs D) (h₀ : D 0 = some 0)
    (hentry : ∀ e ∈ u.handlers, D e.target = some e.entryDepth)
    (hfit : ∀ e ∈ u.handlers, e.entryDepth < Depths.limit u.instrs) : ∃ ds, u.depths = .ok ds := by
  rw [depths_eq_explore hfit]
  refine Depths.explore_consistent hD _ _ _ (fun p hp => absurd hp Depths.not_holds_replicate) fun p hp => ?_
  rcases List.mem_append.1 hp with hp | hp
  · obtain ⟨e, he, rfl⟩ := List.mem_map.1 hp
    exact hentry e (List.mem_reverse.1 he)
  · obtain rfl := List.mem_singleton.1 hp
    exact h₀

end CodeUnit

end ExprCompiler
