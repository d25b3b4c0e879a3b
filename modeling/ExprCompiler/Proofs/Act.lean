/-
Laws of computations: what the basic ones do to their own state and the world, and how computations
are put together. Proofs about the evaluator and the machine go by these laws and leave the layers of
the monad closed.
-/
import ExprCompiler.Place

namespace ExprCompiler

/-! ## Operations on the world -/

namespace World

variable {α : Type}

/-- What an operation comes to that may have a cause to throw. -/
def settled (w : World) : Except Cause α → Except Stop α × World
  | .ok a => (.ok a, w)
  | .error c => (.error (.thrown (w.heap.raise c).1), { w with heap := (w.heap.raise c).2 })

/-- What an operation comes to that may throw or meet a defect. -/
def attempted (w : World) : Except Failure α → Except Stop α × World
  | .ok a => (.ok a, w)
  | .error (.raised c) => (.error (.thrown (w.heap.raise c).1), { w with heap := (w.heap.raise c).2 })
  | .error (.defect d) => (.error (.defect d), w)

end World

namespace Act

variable {ρ σ α β : Type} {x : Act ρ σ α} {s t : σ × World}

/-! ## State -/

@[simp] theorem pure_apply (a : α) (ctx : ρ) (s : σ × World) : (pure a : Act ρ σ α) ctx s = (.ok a, s) := rfl

@[simp] theorem own_apply (ctx : ρ) (s : σ × World) : (own : Act ρ σ σ) ctx s = (.ok s.1, s) := rfl

@[simp] theorem world_apply (ctx : ρ) (s : σ × World) : (world : Act ρ σ World) ctx s = (.ok s.2, s) := rfl

@[simp] theorem heap_apply (ctx : ρ) (s : σ × World) : (heap : Act ρ σ Heap) ctx s = (.ok s.2.heap, s) := rfl

@[simp] theorem read_apply (ctx : ρ) (s : σ × World) : (read : Act ρ σ ρ) ctx s = (.ok ctx, s) := rfl

@[simp] theorem setOwn_apply (a : σ) (ctx : ρ) (s : σ × World) :
    (setOwn a : Act ρ σ Unit) ctx s = (.ok (), a, s.2) := rfl

@[simp] theorem modifyOwn_apply (f : σ → σ) (ctx : ρ) (s : σ × World) :
    (modifyOwn f : Act ρ σ Unit) ctx s = (.ok (), f s.1, s.2) := rfl

@[simp] theorem changeOwn_apply (f : σ → α × σ) (ctx : ρ) (s : σ × World) :
    (changeOwn f : Act ρ σ α) ctx s = (.ok (f s.1).1, (f s.1).2, s.2) := rfl

@[simp] theorem change_apply (f : World → α × World) (ctx : ρ) (s : σ × World) :
    (change f : Act ρ σ α) ctx s = (.ok (f s.2).1, s.1, (f s.2).2) := rfl

@[simp] theorem allocate_apply (f : Heap → α × Heap) (ctx : ρ) (s : σ × World) :
    (allocate f : Act ρ σ α) ctx s = (.ok (f s.2.heap).1, s.1, { s.2 with heap := (f s.2.heap).2 }) := rfl

@[simp] theorem hostCall_apply (lib : Library) (inv : Invoker) (fn : HostRef) (receiver : Value)
    (args : List Value) (ctx : ρ) (s : σ × World) :
    (hostCall lib inv fn receiver args : Act ρ σ _) ctx s =
      (.ok ((lib.host fn ⟨receiver, args⟩ s.2.heap).run inv s.2).1, s.1,
        ((lib.host fn ⟨receiver, args⟩ s.2.heap).run inv s.2).2) := rfl

/-! ## Failures -/

@[simp] theorem throw_apply (e : Stop) (ctx : ρ) (s : σ × World) :
    (throw e : Act ρ σ α) ctx s = (.error e, s) := rfl

@[simp] theorem throwing_apply (v : Value) (ctx : ρ) (s : σ × World) :
    (throwing v : Act ρ σ α) ctx s = (.error (.thrown v), s) := rfl

@[simp] theorem defect_apply (d : Defect) (ctx : ρ) (s : σ × World) :
    (defect d : Act ρ σ α) ctx s = (.error (.defect d), s) := rfl

@[simp] theorem ofExcept_apply (r : Except Stop α) (ctx : ρ) (s : σ × World) :
    (MonadExcept.ofExcept r : Act ρ σ α) ctx s = (r, s) := by
  cases r <;> rfl

@[simp] theorem observe_apply (x : Act ρ σ α) (ctx : ρ) (s : σ × World) :
    observe x ctx s = (.ok (x ctx s).1, (x ctx s).2) := rfl

/-! ## Sequences -/

theorem bind_apply (x : Act ρ σ α) (y : α → Act ρ σ β) (ctx : ρ) (s : σ × World) :
    (x >>= y) ctx s = match x ctx s with
      | (.ok a, t) => y a ctx t
      | (.error e, t) => (.error e, t) := by
  show (ReaderT.bind x y) ctx s = _
  simp only [ReaderT.bind, bind, ExceptT.bind, ExceptT.mk, StateT.bind]
  rcases x ctx s with ⟨a | a, t⟩ <;> rfl

theorem bind_ok {ctx : ρ} {a : α} (h : x ctx s = (.ok a, t)) (y : α → Act ρ σ β) : (x >>= y) ctx s = y a ctx t := by
  rw [bind_apply, h]

theorem bind_error {ctx : ρ} {e : Stop} (h : x ctx s = (.error e, t))
    (y : α → Act ρ σ β) : (x >>= y) ctx s = (.error e, t) := by
  rw [bind_apply, h]

/-- A sequence that gives a value has come to the end of its first part. -/
theorem bind_eq_ok {y : α → Act ρ σ β} {ctx : ρ} {b : β}
    (h : (x >>= y) ctx s = (.ok b, t)) : ∃ a r, x ctx s = (.ok a, r) ∧ y a ctx r = (.ok b, t) := by
  rw [bind_apply] at h
  rcases hx : x ctx s with ⟨e | a, r⟩
  · rw [hx] at h
    cases h
  · rw [hx] at h
    exact ⟨a, r, rfl, h⟩

@[simp] theorem raise_apply (c : Cause) (ctx : ρ) (s : σ × World) :
    (raise c : Act ρ σ α) ctx s =
      (.error (.thrown (s.2.heap.raise c).1), s.1, { s.2 with heap := (s.2.heap.raise c).2 }) := by
  rw [raise, bind_ok (allocate_apply _ ctx s), throwing_apply]

@[simp] theorem settle_apply (r : Except Cause α) (ctx : ρ) (s : σ × World) :
    (settle r : Act ρ σ α) ctx s = ((s.2.settled r).1, s.1, (s.2.settled r).2) := by
  cases r with
  | ok a => rfl
  | error c => exact raise_apply c ctx s

@[simp] theorem attempt_apply (r : Except Failure α) (ctx : ρ) (s : σ × World) :
    (attempt r : Act ρ σ α) ctx s = ((s.2.attempted r).1, s.1, (s.2.attempted r).2) := by
  rcases r with (c | d) | a
  · exact raise_apply c ctx s
  · rfl
  · rfl

@[simp] theorem hostValue_apply (lib : Library) (inv : Invoker) (fn : HostRef) (receiver : Value)
    (args : List Value) (ctx : ρ) (s : σ × World) :
    (hostValue lib inv fn receiver args : Act ρ σ _) ctx s =
      (((lib.host fn ⟨receiver, args⟩ s.2.heap).run inv s.2).1.2, s.1,
        ((lib.host fn ⟨receiver, args⟩ s.2.heap).run inv s.2).2) := by
  rw [hostValue, bind_ok (hostCall_apply lib inv fn receiver args ctx s)]
  exact ofExcept_apply _ ctx _

@[simp] theorem onWorld_apply (f : World → Except Stop α × World) (ctx : ρ) (s : σ × World) :
    (onWorld f : Act ρ σ α) ctx s = ((f s.2).1, s.1, (f s.2).2) := by
  rw [onWorld, bind_ok (change_apply f ctx s), ofExcept_apply]

/-! ## Computations on the world alone -/

/-- A computation is an operation on the world, whatever its own state. -/
def OnWorld (x : Act ρ σ α) (ctx : ρ) (op : World → Except Stop α × World) : Prop :=
  ∀ s w, x ctx (s, w) = ((op w).1, s, (op w).2)

variable {ctx : ρ}

theorem onWorld_settle (r : Except Cause α) : (settle r : Act ρ σ α).OnWorld ctx fun w => w.settled r :=
  fun s w => settle_apply r ctx (s, w)

end Act

end ExprCompiler
