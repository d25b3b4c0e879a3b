/-
Tables of protected regions. A unit has the entries of the protected regions in its code, which stand one after
the other or inside of one another: in the body, in a clause or in the finally body of the region around them.
However they are nested, an entry stands before those of the regions around it, and a handler keeps no less
of the stack and of the open finally bodies than the handlers around it.
-/
import ExprCompiler.Code.Builder
import Mathlib.Tactic

namespace ExprCompiler

/-- Where both entries apply, `e` is that of the inner region: it covers no more than `e'` and keeps no less. -/
def Handler.Inside (e e' : Handler) : Prop :=
  ∀ pc, e.Covers pc → e'.Covers pc →
    e'.start ≤ e.start ∧ e.stop ≤ e'.stop ∧ e'.stackDepth ≤ e.stackDepth ∧ e'.finallyDepth ≤ e.finallyDepth

/-- Kinds of protected regions, by the tests of the clauses and whether there is a finally body. -/
abbrev Tries := List Ty → Bool → Prop

/-- A protected region in code. Its body ends at `stop`. Its clauses follow, each from its target on, and end at
`last`, where the finally body is entered if there is one. -/
structure Guard where
  start : Nat
  stop : Nat
  last : Nat
  clauses : List (Ty × Nat)
  final : Bool
  stackDepth : Nat
  finallyDepth : Nat

namespace Guard

/-- The entries of the clauses, which cover the body. -/
def catches (g : Guard) : List Handler :=
  g.clauses.map fun k => ⟨g.start, g.stop, .catches k.1, k.2, g.stackDepth, g.finallyDepth⟩

/-- The entry of the finally body, which covers the body and the clauses. -/
def finals (g : Guard) : List Handler :=
  if g.final then [⟨g.start, g.last, .finally, g.last + 1, g.stackDepth, g.finallyDepth⟩] else []

/-- The region is of a given kind, and its clauses lie behind its body, in their order. -/
structure Laid (P : Tries) (g : Guard) : Prop where
  kind : P (g.clauses.map Prod.fst) g.final
  body : g.start ≤ g.stop
  clauses : ∀ k ∈ g.clauses, g.stop ≤ k.2 ∧ k.2 < g.last
  order : g.clauses.Pairwise fun k k' => k.2 < k'.2
  last : g.stop ≤ g.last

/-- The entry is one of a region whose entries stand in the table in the order of the clauses, with that of the
finally body behind them. -/
def Lists (P : Tries) (es : List Handler) (e : Handler) : Prop :=
  ∃ g : Guard, g.Laid P ∧ e ∈ g.catches ++ g.finals ∧ (g.catches ++ g.finals).Sublist es

theorem Lists.mono {P : Tries} {es es' : List Handler} {e : Handler} (h : Lists P es e) (hs : es.Sublist es') :
    Lists P es' e := by
  obtain ⟨g, laid, hmem, hsub⟩ := h
  exact ⟨g, laid, hmem, hsub.trans hs⟩

theorem of_mem_catches {g : Guard} {e : Handler} (h : e ∈ g.catches) :
    e.start = g.start ∧ e.stop = g.stop ∧ e.stackDepth = g.stackDepth ∧ e.finallyDepth = g.finallyDepth := by
  obtain ⟨k, -, rfl⟩ := List.mem_map.1 h
  exact ⟨rfl, rfl, rfl, rfl⟩

theorem of_mem_finals {g : Guard} {e : Handler} (h : e ∈ g.finals) :
    e.start = g.start ∧ e.stop = g.last ∧ e.stackDepth = g.stackDepth ∧ e.finallyDepth = g.finallyDepth := by
  unfold finals at h
  split at h <;> simp_all

end Guard

/-- The entries of code from `lo` to `hi` that runs over `d` values or more, with at least `n` finally bodies
open. The entries of a region come after those in its body and in its clauses; that of its finally body comes last. -/
inductive Table (P : Tries) : (lo hi d n : Nat) → List Handler → Prop
  | nil {lo hi d n : Nat} : Table P lo hi d n []
  | append {lo mid hi d n : Nat} {xs ys : List Handler} (left : Table P lo mid d n xs) (right : Table P mid hi d n ys)
      (bounds : lo ≤ mid ∧ mid ≤ hi) : Table P lo hi d n (xs ++ ys)
  | guarded {g : Guard} {hi d n : Nat} {xs ys zs : List Handler} (laid : g.Laid P)
      (body : Table P g.start g.stop g.stackDepth g.finallyDepth xs)
      (clauses : Table P g.stop g.last g.stackDepth g.finallyDepth ys)
      (final : Table P (g.last + 1) hi g.stackDepth (g.finallyDepth + 1) zs)
      (bounds : g.last ≤ hi ∧ d ≤ g.stackDepth ∧ n ≤ g.finallyDepth) :
      Table P g.start hi d n (xs ++ ys ++ g.catches ++ zs ++ g.finals)

namespace Table

variable {P : Tries} {lo hi d n : Nat} {es : List Handler}

/-- The entries are of regions inside of the code and keep what it runs over. -/
theorem within (h : Table P lo hi d n es) :
    ∀ e ∈ es, lo ≤ e.start ∧ e.stop ≤ hi ∧ d ≤ e.stackDepth ∧ n ≤ e.finallyDepth := by
  induction h with
  | nil => simp
  | append _ _ bounds ihx ihy => grind
  | guarded laid _ _ _ bounds ihx ihy ihz =>
    have hbody := laid.body
    have hlast := laid.last
    grind [Guard.of_mem_catches, Guard.of_mem_finals]

/-- Of two entries that cover an instruction, the earlier one is that of the inner region. -/
theorem pairwise (h : Table P lo hi d n es) : es.Pairwise Handler.Inside := by
  induction h with
  | nil => exact .nil
  | append left right _ ihx ihy =>
    refine List.pairwise_append.2 ⟨ihx, ihy, fun e he e' he' pc hc hc' => ?_⟩
    have hle := left.within e he
    have hle' := right.within e' he'
    unfold Handler.Covers at hc hc'
    omega
  | @guarded g hi d n xs ys zs laid body clauses final _ ihx ihy ihz =>
    have hx := body.within
    have hy := clauses.within
    have hz := final.within
    have hbody := laid.body
    have hlast := laid.last
    -- the parts lie one behind the other, but for the entries of the region itself, which lie around them
    have hcatches : g.catches.Pairwise Handler.Inside := List.pairwise_of_forall_mem_list fun e he e' he' pc _ _ => by
      grind [Guard.of_mem_catches]
    have hfinals : g.finals.Pairwise Handler.Inside := List.pairwise_of_forall_mem_list fun e he e' he' pc _ _ => by
      grind [Guard.of_mem_finals]
    simp only [List.pairwise_append, List.mem_append]
    refine ⟨⟨⟨⟨ihx, ihy, ?_⟩, hcatches, ?_⟩, ihz, ?_⟩, hfinals, ?_⟩ <;>
      intro e he e' he' pc hc hc' <;> unfold Handler.Covers at hc hc' <;>
      grind [Guard.of_mem_catches, Guard.of_mem_finals]

theorem lists (h : Table P lo hi d n es) : ∀ e ∈ es, Guard.Lists P es e := by
  induction h with
  | nil => simp
  | append _ _ _ ihx ihy =>
    intro e he
    rcases List.mem_append.1 he with he | he
    · exact (ihx e he).mono (List.sublist_append_left _ _)
    · exact (ihy e he).mono (List.sublist_append_right _ _)
  | @guarded g hi d n xs ys zs laid _ _ _ _ ihx ihy ihz =>
    intro e he
    have hown : (g.catches ++ g.finals).Sublist (xs ++ ys ++ g.catches ++ zs ++ g.finals) :=
      ((List.sublist_append_right _ _).trans (List.sublist_append_left _ _)).append (.refl _)
    simp only [List.mem_append] at he
    rcases he with (((he | he) | he) | he) | he
    · exact (ihx e he).mono (by simp [List.append_assoc])
    · exact (ihy e he).mono (by simp [List.append_assoc])
    · exact ⟨g, laid, List.mem_append_left _ he, hown⟩
    · exact (ihz e he).mono ((List.sublist_append_right _ _).trans (List.sublist_append_left _ _))
    · exact ⟨g, laid, List.mem_append_right _ he, hown⟩

end Table

/-! ## Code under construction -/

namespace Builder

/-- What has been written since is code over `d` values or more, with the entries of its regions. -/
structure Guards (P : Tries) (d : Nat) (b b' : Builder) : Prop where
  nesting : b'.finallyNesting = b.finallyNesting
  pc_le : b.pc ≤ b'.pc
  table : ∃ es, b'.handlers.toList = b.handlers.toList ++ es ∧ Table P b.pc b'.pc d b.finallyNesting es

variable {P : Tries} {d : Nat} {b b' b'' : Builder}

theorem Guards.same (h : b'.handlers = b.handlers) (hn : b'.finallyNesting = b.finallyNesting) (hle : b.pc ≤ b'.pc) :
    b.Guards P d b' :=
  ⟨hn, hle, [], by simp [h], .nil⟩

theorem Guards.trans (h : b.Guards P d b') (h' : b'.Guards P d b'') : b.Guards P d b'' := by
  obtain ⟨hn, hle, xs, hx, tx⟩ := h
  obtain ⟨hn', hle', ys, hy, ty⟩ := h'
  exact ⟨hn'.trans hn, hle.trans hle', xs ++ ys, by rw [hy, hx, List.append_assoc], tx.append (hn ▸ ty) ⟨hle, hle'⟩⟩

end Builder

end ExprCompiler
