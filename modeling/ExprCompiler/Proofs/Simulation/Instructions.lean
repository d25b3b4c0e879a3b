/-
What instructions do with values that are no addresses. Each takes its operands off the stack, acts on
the world as the evaluator does, and leaves its result: reads and writes of the heap, calls of the host
and of function values, and exceptions.
-/
import ExprCompiler.Proofs.Simulation.Values

namespace ExprCompiler

/-! ## Operations on the world -/

namespace World

/-- What a call of a host function comes to, apart from its receiver. -/
def hosted (w : World) (lib : Library) (inv : Invoker) (fn : HostRef) (receiver : Value) (args : List Value) :
    Except Stop Value × World :=
  (((lib.host fn ⟨receiver, args⟩ w.heap).run inv w).1.2, ((lib.host fn ⟨receiver, args⟩ w.heap).run inv w).2)

/-- The same on a receiver that must not be null. -/
def hostedOn (w : World) (lib : Library) (inv : Invoker) (fn : HostRef) (receiver : Value) (args : List Value) :
    Except Stop Value × World :=
  if receiver.isNull then w.settled (.error .nullReference) else w.hosted lib inv fn receiver args

/-- What a call of a function value comes to. -/
def invoked (w : World) (inv : Invoker) (target : Value) (args : List Value) : Except Stop Value × World :=
  match target.asCallable with
  | .ok f => inv f args w
  | .error c => w.settled (.error c)

/-- What an operation comes to that makes a value and changes the heap. -/
def allocated {α : Type} (w : World) (r : α × Heap) : Except Stop α × World :=
  (.ok r.1, { w with heap := r.2 })

/-- The same where it may throw or meet a defect. -/
def built {α : Type} (w : World) : Except Failure (α × Heap) → Except Stop α × World
  | .ok r => w.allocated r
  | .error e => w.attempted (.error e)

/-- What throwing a value comes to. -/
def throws {α : Type} (w : World) (v : Value) : Except Stop α × World :=
  (.error (.thrown (v.thrown w.heap).1), { w with heap := (v.thrown w.heap).2 })

end World

namespace Act

variable {ρ σ α : Type} {ctx : ρ}

theorem onWorld_hostValue (lib : Library) (inv : Invoker) (fn : HostRef) (receiver : Value) (args : List Value) :
    (hostValue lib inv fn receiver args : Act ρ σ Value).OnWorld ctx fun w => w.hosted lib inv fn receiver args :=
  fun s w => hostValue_apply lib inv fn receiver args ctx (s, w)

theorem onWorld_invoke (inv : Invoker) (target : Value) (args : List Value) :
    (invoke inv target args : Act ρ σ Value).OnWorld ctx fun w => w.invoked inv target args := by
  intro s w
  unfold invoke World.invoked
  rcases target.asCallable with c | f
  · exact bind_error (settle_apply (.error c) ctx (s, w)) _
  · rw [bind_ok (settle_apply (.ok f) ctx (s, w))]
    exact onWorld_apply (inv f args) ctx (s, w)

theorem onWorld_allocate (g : Heap → α × Heap) : (allocate g : Act ρ σ α).OnWorld ctx fun w => w.allocated (g w.heap) :=
  fun s w => allocate_apply g ctx (s, w)

/-- A result and a heap, which takes the place of the old one. -/
theorem onWorld_build (g : Heap → Except Failure (α × Heap)) :
    (do
      let (a, h) ← attempt (g (← heap))
      setHeap h
      return a : Act ρ σ α).OnWorld ctx fun w => w.built (g w.heap) := by
  intro s w
  rw [bind_ok (heap_apply ctx (s, w))]
  rcases hg : g w.heap with (c | d) | ⟨a, h⟩ <;> simp only [hg, World.built]
  · exact bind_error (raise_apply c ctx (s, w)) _
  · exact bind_error (defect_apply d ctx (s, w)) _
  · rfl

theorem onWorld_throw (v : Value) :
    (do throwing (← allocate v.thrown) : Act ρ σ α).OnWorld ctx fun w => w.throws v := by
  intro s w
  rw [bind_ok (allocate_apply v.thrown ctx (s, w)), throwing_apply]
  rfl

end Act

namespace MachineM

variable {α : Type} {fc : FrameContext} {f : Frame} {w : World} {base args : List Value} {v r l : Value}

/-- The result of an act on the world goes onto the stack, or is dropped. -/
theorem bind_leave_apply {x : MachineM α} {op : World → Except Stop α × World} {k : α → MachineM Unit}
    {left : α → List Value} (hx : x.OnWorld fc op)
    (hk : ∀ a f w, k a fc (f, w) = (.ok (), { f with stack := left a ++ f.stack }, w)) :
    (x >>= k) fc (f, w) = resumed f f.stack left (op w) := by
  rw [Act.bind_apply, hx]
  rcases op w with ⟨stop | a, w'⟩
  · rfl
  · exact hk a f w'

/-! ## Reads of the heap -/

theorem performs_heap_binary {i : Instr} {g : Heap → Value → Value → Except Cause Value}
    (hi : effect i = do binary (g (← Act.heap))) (l r : Value) :
    Performs fc i [r, l] (fun w => w.settled (g w.heap l r)) fun v => [v] := by
  intro f w base hst
  have hst : f.stack = r :: l :: base := hst
  rw [hi, Act.bind_ok (Act.heap_apply fc (f, w)), binary, Act.bind_ok (pop_apply hst), Act.bind_ok (pop_apply rfl)]
  exact bind_push_apply (Act.onWorld_settle (g w.heap l r))

theorem performs_heap_unary {i : Instr} {g : Heap → Value → Except Cause Value}
    (hi : effect i = do unary (g (← Act.heap))) (v : Value) :
    Performs fc i [v] (fun w => w.settled (g w.heap v)) fun v => [v] := by
  intro f w base hst
  have hst : f.stack = v :: base := hst
  rw [hi, Act.bind_ok (Act.heap_apply fc (f, w)), unary, Act.bind_ok (pop_apply hst)]
  exact bind_push_apply (Act.onWorld_settle (g w.heap v))

theorem performs_loadStatic (s : StaticRef) :
    Performs fc (.loadStatic s) [] (fun w => (.ok (w.heap.loadStatic s), w)) fun v => [v] := by
  intro f w base hst
  have hst : f.stack = base := hst
  rw [effect, Act.bind_ok (Act.heap_apply fc (f, w)), push_apply, hst]
  rfl

/-! ## Receivers -/

theorem withReceiver_of_ne_addr (h : ∀ a, v ≠ .addr a) (g : Value → MachineM (Value × Except Stop α)) :
    withReceiver v g = (g v >>= fun x => MonadExcept.ofExcept x.2) := by
  unfold withReceiver
  split
  · exact absurd rfl (h _)
  · rfl

theorem operand_of_ne_addr (h : ∀ a, v ≠ .addr a) : operand v = pure v := by
  unfold operand
  split
  · exact absurd rfl (h _)
  · rfl

/-- A call of the host on a receiver, for its result only. -/
theorem withReceiver_hostCall (h : ∀ a, v ≠ .addr a) (fn : HostRef) (args : List Value) :
    (withReceiver v fun r => hostCall fn r args).OnWorld fc fun w => w.hosted fc.lib fc.inv fn v args := by
  rw [withReceiver_of_ne_addr h]
  exact fun f w => Act.hostValue_apply fc.lib fc.inv fn v args fc (f, w)

theorem performs_loadField (h : ∀ a, v ≠ .addr a) (i : Nat) :
    Performs fc (.loadField i) [v] (fun w => w.attempted (w.heap.loadField v i)) fun v => [v] := by
  intro f w base hst
  have hst : f.stack = v :: base := hst
  have hread : (withReceiver v fun r => do
      return (r, .ok (← Act.attempt ((← Act.heap).loadField r i)))).OnWorld fc
        fun w => w.attempted (w.heap.loadField v i) := by
    intro f w
    rw [withReceiver_of_ne_addr h]
    simp only [bind_assoc, pure_bind]
    rw [Act.bind_ok (Act.heap_apply fc (f, w))]
    rcases w.heap.loadField v i with (c | d) | u
    · exact Act.bind_error (Act.raise_apply c fc (f, w)) _
    · exact Act.bind_error (Act.defect_apply d fc (f, w)) _
    · rfl
  rw [effect, loadField, Act.bind_ok (pop_apply hst)]
  exact bind_push_apply hread

theorem performs_getProperty (h : ∀ a, v ≠ .addr a) (p : Property) :
    Performs fc (.getProperty p) [v] (fun w => w.hosted fc.lib fc.inv p.getter v []) fun v => [v] := by
  intro f w base hst
  have hst : f.stack = v :: base := hst
  rw [effect, Act.bind_ok (pop_apply hst), operand_of_ne_addr h, pure_bind]
  exact bind_push_apply (Act.onWorld_hostValue fc.lib fc.inv p.getter v [])

theorem performs_getIndex (h : ∀ a, v ≠ .addr a) (ix : Indexer) (hlen : args.length = ix.params.length) :
    Performs fc (.getIndex ix) (args.reverse ++ [v]) (fun w => w.hostedOn fc.lib fc.inv ix.getter v args)
      fun v => [v] := by
  intro f w base hst
  rw [List.append_assoc] at hst
  rw [effect, getIndex, Act.bind_ok (popMany_apply hst (by simpa using hlen)), List.reverse_reverse,
    Act.bind_ok (pop_apply rfl), operand_of_ne_addr h, pure_bind]
  unfold World.hostedOn
  split
  · exact Act.bind_error (Act.raise_apply .nullReference fc _) _
  · exact bind_push_apply (Act.onWorld_hostValue fc.lib fc.inv ix.getter v args)

/-! ## Calls -/

theorem performs_call_static {m : Method} (hm : m.isStatic = true) (hlen : args.length = m.params.length) :
    Performs fc (.call m) args.reverse (fun w => w.hosted fc.lib fc.inv m.impl .null args)
      fun v => if m.ret.isVoid then [] else [v] := by
  intro f w base hst
  rw [effect, callMethod, Act.bind_ok (popMany_apply hst (by simpa using hlen)), List.reverse_reverse]
  simp only [hm, if_true]
  refine bind_leave_apply (Act.onWorld_hostValue fc.lib fc.inv m.impl .null args) fun a f w => ?_
  cases m.ret.isVoid <;> rfl

theorem performs_call_instance {m : Method} (hm : m.isStatic = false) (h : ∀ a, v ≠ .addr a)
    (hlen : args.length = m.params.length) :
    Performs fc (.call m) (args.reverse ++ [v]) (fun w => w.hostedOn fc.lib fc.inv m.impl v args)
      fun v => if m.ret.isVoid then [] else [v] := by
  intro f w base hst
  rw [List.append_assoc] at hst
  rw [effect, callMethod, Act.bind_ok (popMany_apply hst (by simpa using hlen)), List.reverse_reverse]
  simp only [hm, Bool.false_eq_true, if_false]
  rw [Act.bind_ok (pop_apply rfl)]
  unfold World.hostedOn
  split
  · exact Act.bind_error (Act.raise_apply .nullReference fc _) _
  · refine bind_leave_apply (withReceiver_hostCall h m.impl args) fun a f w => ?_
    cases m.ret.isVoid <;> rfl

theorem performs_new {ctor : Constructor} (hlen : args.length = ctor.params.length) :
    Performs fc (.new ctor) args.reverse (fun w => w.hosted fc.lib fc.inv ctor.impl .null args) fun v => [v] := by
  intro f w base hst
  rw [effect, Act.bind_ok (popMany_apply hst (by simpa using hlen)), List.reverse_reverse]
  exact bind_push_apply (Act.onWorld_hostValue fc.lib fc.inv ctor.impl .null args)

theorem performs_invoke (target : Value) (returns : Bool) :
    Performs fc (.invoke args.length returns) (args.reverse ++ [target]) (fun w => w.invoked fc.inv target args)
      fun v => if returns then [v] else [] := by
  intro f w base hst
  rw [List.append_assoc] at hst
  rw [effect, Act.bind_ok (popMany_apply hst (by simp)), List.reverse_reverse, Act.bind_ok (pop_apply rfl),
    Act.bind_ok (Act.read_apply fc _)]
  refine bind_leave_apply (Act.onWorld_invoke fc.inv target args) fun a f w => ?_
  cases returns <;> rfl

/-! ## Arrays and statics -/

theorem performs_newArrayOf (elem : Ty) :
    Performs fc (.newArrayOf elem args.length) args.reverse (fun w => w.allocated (w.heap.newArray elem args.toArray))
      fun v => [v] := by
  intro f w base hst
  rw [effect, Act.bind_ok (popMany_apply hst (by simp)), List.reverse_reverse]
  exact bind_push_apply (Act.onWorld_allocate fun h => h.newArray elem args.toArray)

theorem performs_newArray (elem : Ty) (length : Value) :
    Performs fc (.newArray elem) [length] (fun w => w.built (w.heap.newArrayOfLength elem length)) fun v => [v] := by
  intro f w base hst
  have hst : f.stack = length :: base := hst
  have hpush := bind_push_apply (f := { f with stack := base }) (w := w)
    (show Act.OnWorld _ fc _ from Act.onWorld_build fun h => h.newArrayOfLength elem length)
  simp only [bind_assoc, pure_bind] at hpush
  rw [effect, Act.bind_ok (pop_apply hst)]
  exact hpush

theorem performs_storeElem (array index v : Value) :
    Performs fc .storeElem [v, index, array]
      (fun w => w.built (match w.heap.arraySet array index v with
        | .ok h => .ok ((), h)
        | .error c => .error (.raised c))) fun _ => [] := by
  intro f w base hst
  have hst : f.stack = v :: index :: array :: base := hst
  rw [effect, Act.bind_ok (pop_apply hst), Act.bind_ok (pop_apply rfl), Act.bind_ok (pop_apply rfl),
    Act.bind_ok (Act.heap_apply fc _)]
  rcases hr : w.heap.arraySet array index v with c | h <;> simp only [hr]
  · exact Act.bind_error (Act.raise_apply c fc _) _
  · rfl

theorem performs_storeStatic (s : StaticRef) (v : Value) :
    Performs fc (.storeStatic s) [v] (fun w => w.allocated ((), w.heap.storeStatic s v)) fun _ => [] := by
  intro f w base hst
  have hst : f.stack = v :: base := hst
  rw [effect, Act.bind_ok (pop_apply hst)]
  rfl

/-! ## Members -/

theorem performs_storeField (h : ∀ a, r ≠ .addr a) (i : Nat) (v : Value) :
    Performs fc (.storeField i) [v, r] (fun w => w.built ((w.heap.storeField r i v).map fun x => ((), x.2)))
      fun _ => [] := by
  intro f w base hst
  have hst : f.stack = v :: r :: base := hst
  rw [effect, Act.bind_ok (pop_apply hst), Act.bind_ok (pop_apply rfl), withReceiver_of_ne_addr h]
  simp only [Act.storeField, bind_assoc, pure_bind]
  rw [Act.bind_ok (Act.heap_apply fc _)]
  rcases w.heap.storeField r i v with (c | d) | ⟨r', h'⟩
  · exact Act.bind_error (Act.raise_apply c fc _) _
  · exact Act.bind_error (Act.defect_apply d fc _) _
  · rfl

theorem performs_setProperty (h : ∀ a, r ≠ .addr a) {p : Property} {set : HostRef} (hp : p.setter = some set)
    (v : Value) : Performs fc (.setProperty p) [v, r] (fun w => w.hosted fc.lib fc.inv set r [v]) fun _ => [] := by
  intro f w base hst
  have hst : f.stack = v :: r :: base := hst
  rw [effect, setProperty, Act.bind_ok (pop_apply hst), Act.bind_ok (pop_apply rfl)]
  simp only [hp]
  exact bind_leave_apply (withReceiver_hostCall h set [v]) fun a f w => rfl

theorem performs_setIndex (h : ∀ a, r ≠ .addr a) {ix : Indexer} {set : HostRef} (hset : ix.setter = some set)
    (hlen : args.length = ix.params.length) (v : Value) :
    Performs fc (.setIndex ix) (v :: args.reverse ++ [r]) (fun w => w.hostedOn fc.lib fc.inv set r (args ++ [v]))
      fun _ => [] := by
  intro f w base hst
  have hst : f.stack = v :: (args.reverse ++ (r :: base)) := by simpa using hst
  rw [effect, setIndex, Act.bind_ok (pop_apply hst), Act.bind_ok (popMany_apply rfl (by simpa using hlen)),
    List.reverse_reverse, Act.bind_ok (pop_apply rfl)]
  unfold World.hostedOn
  split
  · exact Act.bind_error (Act.raise_apply .nullReference fc _) _
  · simp only [hset]
    exact bind_leave_apply (withReceiver_hostCall h set (args ++ [v])) fun a f w => rfl

theorem performs_throw (v : Value) :
    Performs fc .throw [v] (fun w => w.throws v) fun _ : Empty => [] := by
  intro f w base hst
  have hst : f.stack = v :: base := hst
  rw [effect, Act.bind_ok (pop_apply hst), Act.onWorld_throw v]
  rfl

end MachineM

end ExprCompiler
