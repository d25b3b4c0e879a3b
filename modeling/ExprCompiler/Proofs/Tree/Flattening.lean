/-
Flattening loses nothing. A tree that is stored in an arena keeps its nodes apart and in order: every node is
stored once, after its children, so the check that guards appending never fails, and the arena has as many
nodes as the tree. Expanding the root ends, because positions get smaller on the way down, and gives the stored
tree back, except that every occurrence of a node has an identity of its own.
-/
import ExprCompiler.Proofs.Compile.Arena
import Mathlib.Data.Set.Card

namespace ExprCompiler

/-! ## Computing shapes in two monads -/

/-- A way to compare computations of two monads whose results are related by a function. -/
structure Lifting (m n : Type → Type) [Monad m] [Monad n] where
  Rel : {α β : Type} → (α → β) → m α → n β → Prop
  pure {α β : Type} {h : α → β} (a : α) : Rel h (pure a) (pure (h a))
  bind {α β γ δ : Type} {h : α → β} {h' : γ → δ} {x : m α} {y : n β} {k : α → m γ} {l : β → n δ} :
    Rel h x y → (∀ a, Rel h' (k a) (l (h a))) → Rel h' (x >>= k) (y >>= l)

namespace Lifting

variable {m n : Type → Type} [Monad m] [Monad n] [LawfulMonad m] [LawfulMonad n] (L : Lifting m n) {A C D E : Type}

theorem mapM_list {A' : Type} {h : A → A'} {f : C → m A} {g : C → n A'} {cs : List C}
    (hc : ∀ c ∈ cs, L.Rel h (f c) (g c)) : L.Rel (List.map h) (cs.mapM f) (cs.mapM g) := by
  induction cs with
  | nil => exact L.pure []
  | cons c cs ih =>
    rw [List.mapM_cons, List.mapM_cons]
    refine L.bind (hc c (by simp)) fun a => L.bind (ih fun b hb => hc b (by simp [hb])) fun as => ?_
    exact L.pure (a :: as)

theorem mapM_option {h : D → E} {f : C → m D} {g : C → n E} {c : Option C}
    (hc : ∀ b ∈ c, L.Rel h (f b) (g b)) : L.Rel (Option.map h) (c.mapM f) (c.mapM g) := by
  cases c with
  | none => exact L.pure none
  | some c =>
    rw [Option.mapM_some, Option.mapM_some, map_eq_pure_bind, map_eq_pure_bind]
    exact L.bind (hc c rfl) fun a => L.pure (some a)

/-- Computations on the children that compare well make computations on the shape that do. -/
theorem mapM_shape {h : D → E} {f : C → m D} {g : C → n E} {s : Shape C}
    (hc : ∀ c ∈ s.children, L.Rel h (f c) (g c)) : L.Rel (Shape.map h) (s.mapM f) (s.mapM g) := by
  have hlist : ∀ cs : List C, (∀ c ∈ cs, c ∈ s.children) → L.Rel (List.map h) (cs.mapM f) (cs.mapM g) := fun cs hcs =>
    L.mapM_list fun c hm => hc c (hcs c hm)
  have hoption : ∀ r : Option C, (∀ c ∈ r, c ∈ s.children) → L.Rel (Option.map h) (r.mapM f) (r.mapM g) := fun r hr =>
    L.mapM_option fun c hm => hc c (hr c hm)
  cases s with
  | constant v => exact L.pure (Shape.constant v)
  | parameter p => exact L.pure (Shape.parameter p)
  | default => exact L.pure Shape.default
  | convert e checked me => exact L.bind (hc e (by simp)) fun i => L.pure (Shape.convert i checked me)
  | newArrayOfLength elem k =>
    exact L.bind (hc k (by simp)) fun i => L.pure (Shape.newArrayOfLength elem i)
  | lambda ps b name => exact L.bind (hc b (by simp)) fun i => L.pure (Shape.lambda ps i name)
  | unary op e checked => exact L.bind (hc e (by simp)) fun i => L.pure (Shape.unary op i checked)
  | arrayIndex a i =>
    exact L.bind (hc a (by simp)) fun j => L.bind (hc i (by simp)) fun k =>
      L.pure (Shape.arrayIndex j k)
  | compare op l r me =>
    exact L.bind (hc l (by simp)) fun i => L.bind (hc r (by simp)) fun j =>
      L.pure (Shape.compare op i j me)
  | arith op l r checked me =>
    exact L.bind (hc l (by simp)) fun i => L.bind (hc r (by simp)) fun j =>
      L.pure (Shape.arith op i j checked me)
  | logical op l r =>
    exact L.bind (hc l (by simp)) fun i => L.bind (hc r (by simp)) fun j =>
      L.pure (Shape.logical op i j)
  | coalesce l r =>
    exact L.bind (hc l (by simp)) fun i => L.bind (hc r (by simp)) fun j =>
      L.pure (Shape.coalesce i j)
  | assign t v =>
    exact L.bind (hc t (by simp)) fun i => L.bind (hc v (by simp)) fun j =>
      L.pure (Shape.assign i j)
  | cond t a b =>
    exact L.bind (hc t (by simp)) fun i => L.bind (hc a (by simp)) fun j =>
      L.bind (hc b (by simp)) fun k => L.pure (Shape.cond i j k)
  | call r me args =>
    exact L.bind (hoption r (by simp_all)) fun i =>
      L.bind (hlist args (by simp_all)) fun is => L.pure (Shape.call i me is)
  | member r me => exact L.bind (hoption r (by simp_all)) fun i => L.pure (Shape.member i me)
  | throw r => exact L.bind (hoption r (by simp_all)) fun i => L.pure (Shape.throw i)
  | new ctor args => exact L.bind (hlist args fun c hm => hm) fun is => L.pure (Shape.new ctor is)
  | newArray elem items => exact L.bind (hlist items fun c hm => hm) fun is => L.pure (Shape.newArray elem is)
  | block vars body => exact L.bind (hlist body fun c hm => hm) fun is => L.pure (Shape.block vars is)
  | invoke t args =>
    exact L.bind (hc t (by simp)) fun i =>
      L.bind (hlist args (by simp_all)) fun is => L.pure (Shape.invoke i is)
  | index r ix args =>
    exact L.bind (hc r (by simp)) fun i =>
      L.bind (hlist args (by simp_all)) fun is => L.pure (Shape.index i ix is)
  | memberInit t bs =>
    have hbs : L.Rel (List.map (Binding.map h)) (bs.mapM fun b => do return ⟨b.member, ← f b.value⟩)
        (bs.mapM fun b => do return ⟨b.member, ← g b.value⟩) := by
      refine L.mapM_list fun b hb => ?_
      have hb : b.value ∈ (Shape.memberInit t bs).children := List.mem_cons_of_mem _ (List.mem_map_of_mem hb)
      exact L.bind (hc b.value hb) fun i => L.pure (Binding.mk b.member i)
    exact L.bind (hc t (by simp)) fun i => L.bind hbs fun is => L.pure (Shape.memberInit i is)
  | guarded b ks fin =>
    have hk : ∀ k ∈ ks, ∀ c ∈ k.children, c ∈ (Shape.guarded b ks fin).children := fun k hk c hm =>
      List.mem_append_left _ (List.mem_cons_of_mem _ (List.mem_flatMap.2 ⟨k, hk, hm⟩))
    have hks : L.Rel (List.map (CatchClause.map h))
        (ks.mapM fun k => do
          let filter ← k.filter.mapM f
          return ⟨k.test, k.var, filter, ← f k.body⟩)
        (ks.mapM fun k => do
          let filter ← k.filter.mapM g
          return ⟨k.test, k.var, filter, ← g k.body⟩) := by
      refine L.mapM_list fun k hk' => ?_
      have hfilter := hoption k.filter fun c hm => hk k hk' c (by simp_all [CatchClause.children])
      have hbody := hc k.body (hk k hk' _ (by simp [CatchClause.children]))
      exact L.bind hfilter fun e => L.bind hbody fun i => L.pure (CatchClause.mk k.test k.var e i)
    exact L.bind (hc b (by simp)) fun i => L.bind hks fun is =>
      L.bind (hoption fin (by simp_all)) fun e => L.pure (Shape.guarded i is e)

end Lifting

theorem Shape.map_id {C : Type} (s : Shape C) : s.map id = s := by
  have hbinding : Binding.map (id : C → C) = id := rfl
  have hclause : CatchClause.map (id : C → C) = id := by
    funext k
    simp [CatchClause.map]
  cases s <;> simp [Shape.map, hbinding, hclause]

theorem Shape.mapM_pure {C D : Type} {m : Type → Type} [Monad m] [LawfulMonad m] (g : C → D) (s : Shape C) :
    s.mapM (fun c => (pure (g c) : m D)) = pure (s.map g) := by
  have hoption : ∀ r : Option C, r.mapM (fun c => (pure (g c) : m D)) = pure (r.map g) := fun r => by
    cases r <;> simp
  cases s <;> simp [Shape.map, Shape.mapM, hoption, List.mapM_pure] <;> rfl

/-! ## Trees up to the identities of their nodes -/

namespace Tree

/-- What is left of a tree if the identities of its nodes do not matter. -/
def form (t : Tree) : Tree :=
  t.rename fun _ => 0

theorem form_node (id : NodeId) (ty : Ty) (s : Shape Tree) : (Tree.node id ty s).form = .node 0 ty (s.map form) :=
  rename_node _ id ty s

theorem form_rename (f : NodeId → NodeId) (t : Tree) : (t.rename f).form = t.form := by
  induction t using Tree.induct with
  | node id ty s ih =>
    rw [rename_node, form_node, form_node, Shape.map_map]
    congr 1
    exact Shape.map_congr ih

theorem unshare_node (id : NodeId) (ty : Ty) (s : Shape Tree) (next : NodeId) :
    (Tree.node id ty s).unshare next =
      (.node (s.mapM unshare next).2 ty (s.mapM unshare next).1, (s.mapM unshare next).2 + 1) := by
  rw [unshare, fold_node]
  show ((s.map (.of unshare)).mapM Child.meaning >>= _ : StateM NodeId Tree) next = _
  rw [Shape.mapM_map]
  rfl

/-- Giving out identities does not change what comes out otherwise. -/
def anyIdentities : Lifting (StateM NodeId) Id where
  Rel h x y := ∀ next, h (x next).1 = y
  pure _ _ := rfl
  bind hx hk next := by
    rename_i h _ x y k l
    show _ = l y
    rw [← hx next]
    exact hk (x next).1 (x next).2

theorem form_unshare (t : Tree) (next : NodeId) : (t.unshare next).1.form = t.form := by
  induction t using Tree.induct generalizing next with
  | node id ty s ih =>
    have hshape : ((s.mapM unshare next).1).map form = Id.run (s.mapM fun c => pure c.form) :=
      anyIdentities.mapM_shape (fun c hc next => ih c hc next) next
    rw [unshare_node, form_node, form_node, hshape, Shape.mapM_pure]
    rfl

end Tree

namespace Arena

/-! ## Expanding a position -/

/-- Every node stands after its children. -/
def Ordered (a : Arena) : Prop :=
  ∀ (i : Nat) (n : ArenaNode), a.nodes[i]? = some n → ∀ c ∈ n.shape.children, c < i

/-- Expanding the node at a position, and before it the nodes at its children's positions, ends with a tree. -/
inductive Expands (a : Arena) : Nat → Tree → Prop
  | node {i : Nat} {n : ArenaNode} {below : Nat → Tree} (here : a.nodes[i]? = some n)
    (children : ∀ c ∈ n.shape.children, Expands a c (below c)) : Expands a i (.node i n.ty (n.shape.map below))

variable {a : Arena}

/-- The tree at a position is the node there over the trees at its children's positions. -/
theorem Ordered.getElem?_trees (h : a.Ordered) {i : Nat} {n : ArenaNode} (hn : a.nodes[i]? = some n) :
    a.trees[i]? = some (.node i n.ty (n.shape.map fun c => a.trees[c]?.getD default)) := by
  -- the trees built from the first `k` nodes stay as they are while later ones are added
  have hbuilt : a.trees.size = a.nodes.size ∧ ∀ (j : Nat) (n : ArenaNode), j < a.nodes.size → a.nodes[j]? = some n →
      a.trees[j]? = some (.node j n.ty (n.shape.map fun c => a.trees[c]?.getD default)) := by
    unfold trees
    refine Array.foldl_induction (fun k (done : Array Tree) => done.size = k ∧ ∀ (j : Nat) (n : ArenaNode), j < k →
      a.nodes[j]? = some n → done[j]? = some (.node j n.ty (n.shape.map fun c => done[c]?.getD default))) ?_ ?_
    · exact ⟨rfl, fun j n hj => absurd hj (Nat.not_lt_zero j)⟩
    · rintro k done ⟨hsize, hdone⟩
      refine ⟨by rw [Array.size_push, hsize], fun j n hj hn => ?_⟩
      have hkept : ∀ (t : Tree) (c : Nat), c < done.size → (done.push t)[c]? = done[c]? := fun t c hc =>
        Array.getElem?_push_lt hc |>.trans (Array.getElem?_eq_getElem hc).symm
      by_cases hjk : j = k
      · subst hjk
        have hnode : a.nodes[k] = n := by
          rw [Array.getElem?_eq_getElem k.isLt] at hn
          exact Option.some.inj hn
        have hlt : ∀ c ∈ n.shape.children, c < done.size := fun c hc => hsize ▸ h _ n hn c hc
        rw [← hsize, Array.getElem?_push_size, hnode]
        congr 2
        exact Shape.map_congr fun c hc => by rw [hkept _ c (hlt c hc)]
      · have hj : j < k := by omega
        rw [hkept _ j (by omega), hdone j n hj hn]
        congr 2
        refine Shape.map_congr fun c hc => ?_
        have := h j n hn c hc
        rw [hkept _ c (by omega)]
  have hi : i < a.nodes.size := by
    by_contra hge
    rw [Array.getElem?_eq_none (by omega)] at hn
    cases hn
  exact hbuilt.2 i n hi hn

/-- Every position expands to the tree found there. -/
theorem Ordered.expands (h : a.Ordered) {i : Nat} {t : Tree} (ht : a.trees[i]? = some t) : a.Expands i t := by
  induction i using Nat.strongRecOn generalizing t with
  | ind i ih =>
    have hi : i < a.nodes.size := by
      rw [← size_trees]
      exact (Array.getElem?_eq_some_iff.1 ht).1
    have hn := Array.getElem?_eq_getElem hi
    have htree := h.getElem?_trees hn
    obtain rfl := Option.some.inj (ht.symm.trans htree)
    refine .node hn fun c hc => ?_
    have hlt := h i _ hn c hc
    have hfound : a.trees[c]? = some (a.trees[c]?.getD default) := by
      rw [Array.getElem?_eq_getElem (by rw [size_trees]; omega)]
      rfl
    exact ih c hlt hfound

theorem Ordered.id_tree (h : a.Ordered) {i : Nat} (hi : i < a.nodes.size) :
    (a.trees[i]?.getD default).id = i := by
  rw [h.getElem?_trees (Array.getElem?_eq_getElem hi)]
  rfl

theorem rootTree_eq_ok {i : Nat} {t : Tree} (hroot : a.root = some i) (ht : a.trees[i]? = some t) :
    a.rootTree = .ok t := by
  unfold rootTree getRoot
  rw [hroot]
  show a.tree i = _
  unfold tree
  rw [ht]

/-! ## Storing with the check -/

/-- Stores a tree unless it is there already, through the appending that checks where the children stand. -/
def storeChecked : Tree → StateT Filling (Except Defect) Nat :=
  Tree.fold fun id ty shape => do
    let filled ← MonadState.get
    match filled.positions[id]? with
    | some i => return i
    | none =>
      let shape ← shape.mapM Tree.Child.meaning
      fun a => do
        let (i, arena) ← Arena.push ⟨a.nodes, none⟩ ty shape
        return (i, ⟨arena.nodes, a.positions.insert id i⟩)

theorem storeChecked_node (id : NodeId) (ty : Ty) (sh : Shape Tree) (s : Filling) :
    storeChecked (.node id ty sh) s = match s.positions[id]? with
      | some i => .ok (i, s)
      | none => do
        let (shape, s') ← sh.mapM storeChecked s
        let (i, arena) ← Arena.push ⟨s'.nodes, none⟩ ty shape
        return (i, ⟨arena.nodes, s'.positions.insert id i⟩) := by
  rw [storeChecked, Tree.fold_node]
  show (match s.positions[id]? with
    | some i => Pure.pure i
    | none => (sh.map (.of storeChecked)).mapM Tree.Child.meaning >>= _ : StateT Filling (Except Defect) Nat) s = _
  rw [Shape.mapM_map]
  cases s.positions[id]? <;> rfl

theorem push_eq_ok {ty : Ty} {shape : Shape Nat} (h : ∀ c ∈ shape.children, c < a.size) :
    a.push ty shape = .ok (a.size, { a with nodes := a.nodes.push ⟨ty, shape⟩ }) := by
  unfold push
  rw [List.find?_eq_none.2 fun c hc => by simpa using h c hc]

namespace Filling

/-- Every position is that of a node, and a node stands after its children. -/
structure Packed (s : Filling) : Prop where
  full : ∀ i < s.nodes.size, ∃ id : NodeId, s.positions[id]? = some i
  ordered : Ordered ⟨s.nodes, none⟩

theorem Packed.empty : ({} : Filling).Packed where
  full i hi := absurd hi (Nat.not_lt_zero i)
  ordered i n hn := by cases hn

/-- The position of a node, past the end if the node is not stored. -/
def position (s : Filling) (id : NodeId) : Nat :=
  s.positions[id]?.getD s.nodes.size

theorem agrees_position (s : Filling) : s.Agrees s.position := fun id i hi => by simp [position, hi]

variable {root : Tree} {s : Filling}

theorem Holds.position_lt (h : s.Holds root) {id : NodeId} :
    s.position id < s.nodes.size ↔ s.positions[id]? ≠ none := by
  unfold position
  cases hi : s.positions[id]? with
  | none => simp
  | some i => simpa using h.bound id i hi

theorem Holds.position_inj (h : s.Holds root) {id id' : NodeId} (hid : s.positions[id]? ≠ none)
    (hid' : s.positions[id']? ≠ none) (heq : s.position id = s.position id') : id = id' := by
  obtain ⟨i, hi⟩ := Option.ne_none_iff_exists'.1 hid
  obtain ⟨j, hj⟩ := Option.ne_none_iff_exists'.1 hid'
  rw [s.agrees_position id i hi, s.agrees_position id' j hj] at heq
  exact h.inj id id' i hi (heq ▸ hj)

theorem Packed.push (h : s.Packed) {id : NodeId} {ty : Ty} {shape : Shape Nat} (hnew : s.positions[id]? = none)
    (hlt : ∀ c ∈ shape.children, c < s.nodes.size) :
    Packed ⟨s.nodes.push ⟨ty, shape⟩, s.positions.insert id s.nodes.size⟩ := by
  constructor
  · intro i hi
    rw [Array.size_push] at hi
    by_cases hlast : i = s.nodes.size
    · exact ⟨id, hlast ▸ Std.HashMap.getElem?_insert_self⟩
    · obtain ⟨id', hid⟩ := h.full i (by omega)
      refine ⟨id', ?_⟩
      rw [Std.HashMap.getElem?_insert, if_neg]
      · exact hid
      · rintro heq
        rw [← eq_of_beq heq, hnew] at hid
        cases hid
  · intro i n hn
    by_cases hlast : i = s.nodes.size
    · subst hlast
      rw [Array.getElem?_push_size] at hn
      cases hn
      exact hlt
    · rw [Array.getElem?_push, if_neg hlast] at hn
      exact h.ordered i n hn

end Filling

open Filling

/-- Storing with the check succeeds and does the same, on an arena that is packed, and leaves it packed. -/
def passingChecks (root : Tree) : Lifting (StateT Filling (Except Defect)) (StateM Filling) where
  Rel h x y := ∀ s : Filling, s.Holds root → s.Packed →
    ∃ a, x s = .ok (a, (y s).2) ∧ h a = (y s).1 ∧ (y s).2.Holds root ∧ (y s).2.Packed
  pure a s hs hp := ⟨a, rfl, rfl, hs, hp⟩
  bind hx hk s hs hp := by
    rename_i h _ x y k l
    obtain ⟨a, hxs, ha, hs', hp'⟩ := hx s hs hp
    obtain ⟨b, hkb, hb, hs'', hp''⟩ := hk a (y s).2 hs' hp'
    have hy : (y >>= l) s = l (h a) (y s).2 := by
      rw [ha]
      rfl
    rw [hy]
    refine ⟨b, ?_, hb, hs'', hp''⟩
    show (x s >>= fun p => k p.1 p.2) = _
    rw [hxs]
    exact hkb

/-- Children are stored at positions that the arena has. -/
theorem Filling.Stores.children_lt {root : Tree} {s : Filling} {added : NodeId → Prop} {sh : Shape Tree}
    {out : Shape Nat × Filling}
    (h : s.Stores root added (sh.children.map Tree.id) (fun g => sh.map fun c => g c.id) out) :
    ∀ c ∈ out.1.children, c < out.2.nodes.size := by
  intro i hi
  rw [h.result _ (agrees_position out.2), Shape.children_map] at hi
  obtain ⟨c, hc, rfl⟩ := List.mem_map.1 hi
  exact h.holds.position_lt.2 (h.stored c.id (List.mem_map_of_mem hc))

theorem storeChecked_eq_store {root : Tree} (hroot : root.SharesNodes) (t : Tree) (ht : t.Occurs root) :
    (passingChecks root).Rel id (storeChecked t) (store t) := by
  induction t using Tree.induct with
  | node id ty sh ih =>
    intro s hs hp
    have hbelow : ∀ c ∈ sh.children, c.Occurs root := fun c hc => .trans (.inside hc .here) ht
    have hholds := (fills_store hroot _ ht s hs).holds
    rw [storeChecked_node]
    rw [store_node] at hholds ⊢
    cases hpos : s.positions[id]? with
    | some i => exact ⟨i, rfl, rfl, hs, hp⟩
    | none =>
      rw [hpos] at hholds
      obtain ⟨shape, hshape, hmap, -, hp'⟩ :=
        (passingChecks root).mapM_shape (fun c hc => ih c hc (hbelow c hc)) s hs hp
      have hstores := fills_mapM (fun c hc => (fills_store hroot c (hbelow c hc)).mono fun id' ⟨n, hn, hid⟩ =>
        show ∃ c ∈ sh.children, ∃ n : Tree, n.Occurs c ∧ n.id = id' from ⟨c, hc, n, hn, hid⟩) s hs
      have hnew := hstores.new_after_children hroot ht hpos
      have hlt := hstores.children_lt
      rw [Shape.map_id] at hmap
      generalize sh.mapM store s = out at hshape hmap hp' hnew hlt hholds ⊢
      obtain ⟨_, s'⟩ := out
      obtain rfl : shape = _ := hmap
      refine ⟨s'.nodes.size, ?_, rfl, hholds, hp'.push hnew hlt⟩
      simp only [hshape, bind, Except.bind]
      rw [push_eq_ok hlt]
      rfl

namespace Filling

variable {root : Tree} {s : Filling}

/-- A stored node is at its position, over the positions of its children. -/
theorem Holds.node (h : s.Holds root) (hp : s.Packed) (hroot : root.SharesNodes) {n : Tree} (hn : n.Occurs root)
    (hstored : s.positions[n.id]? ≠ none) :
    s.nodes[s.position n.id]? = some ⟨n.ty, n.shape.map fun c => s.position c.id⟩ := by
  have hlt := h.position_lt.2 hstored
  have hnode := Array.getElem?_eq_getElem hlt
  have htree : s.trees[s.position n.id]? = some (n.rename s.position) := by
    obtain ⟨i, hi⟩ := Option.ne_none_iff_exists'.1 hstored
    rw [s.agrees_position n.id i hi]
    exact h.tree hroot hn hi s.agrees_position
  have heq := Option.some.inj (htree.symm.trans (hp.ordered.getElem?_trees hnode))
  rw [hnode]
  generalize s.nodes[s.position n.id] = stored at hnode heq
  obtain ⟨id, ty, sh⟩ := n
  obtain ⟨ty', shape⟩ := stored
  rw [Tree.rename_node] at heq
  injection heq with _ hty hshape
  -- a tree of an arena has its position for an identity, so the trees below tell the positions of the children
  have hids := congrArg (Shape.map Tree.id) hshape
  rw [Shape.map_map, Shape.map_map] at hids
  have hright : shape.map (Tree.id ∘ fun c => (Arena.trees ⟨s.nodes, none⟩)[c]?.getD default) = shape := by
    refine (Shape.map_congr fun c hc => ?_).trans shape.map_id
    exact hp.ordered.id_tree (Nat.lt_trans (hp.ordered _ _ hnode c hc) hlt)
  have hleft : sh.map (Tree.id ∘ Tree.rename s.position) = sh.map fun c => s.position c.id :=
    Shape.map_congr fun c _ => Tree.id_rename _ c
  rw [hright, hleft] at hids
  exact congrArg some (congrArg₂ ArenaNode.mk hty.symm hids.symm)

/-- With a node, all that occurs in it is stored. -/
theorem Holds.stored_below (h : s.Holds root) (hp : s.Packed) (hroot : root.SharesNodes) {n t : Tree} (hn : n.Occurs t)
    (ht : t.Occurs root) (hstored : s.positions[t.id]? ≠ none) : s.positions[n.id]? ≠ none := by
  induction hn with
  | here => exact hstored
  | inside hc _ ih =>
    refine ih (.trans (.inside hc .here) ht) (h.position_lt.1 ?_)
    have hlt := hp.ordered _ _ (h.node hp hroot ht hstored) (s.position _) (by
      rw [Shape.children_map]
      exact List.mem_map_of_mem hc)
    exact Nat.lt_trans hlt (h.position_lt.2 hstored)

/-- Positions count the nodes of a tree that is stored alone. -/
theorem Holds.size_eq (h : s.Holds root) (hp : s.Packed) (hroot : root.SharesNodes)
    (hstored : s.positions[root.id]? ≠ none) : s.nodes.size = {n : Tree | n.Occurs root}.ncard := by
  have hbelow : ∀ n : Tree, n.Occurs root → s.positions[n.id]? ≠ none := fun n hn =>
    h.stored_below hp hroot hn .here hstored
  have hinj : Set.InjOn (fun n : Tree => s.position n.id) {n : Tree | n.Occurs root} := fun n hn n' hn' heq =>
    hroot n n' hn hn' (h.position_inj (hbelow n hn) (hbelow n' hn') heq)
  have himage : (fun n : Tree => s.position n.id) '' {n : Tree | n.Occurs root} = Set.Iio s.nodes.size := by
    ext i
    constructor
    · rintro ⟨n, hn, rfl⟩
      exact h.position_lt.2 (hbelow n hn)
    · intro hi
      obtain ⟨id, hid⟩ := hp.full i hi
      obtain ⟨n, hn, rfl, -⟩ := h.stored id i hid
      exact ⟨n, hn, s.agrees_position n.id i hid⟩
  rw [← hinj.ncard_image, himage, ← Finset.coe_Iio, Set.ncard_coe_finset, Nat.card_Iio]

end Filling

/-! ## The arena of a tree -/

/-- Storing a tree passes every check of where children stand; the arena has one node for every node of the tree,
at a position of its own, and each after its children; and expanding the root ends with a tree that is the stored
one if identities do not matter. -/
theorem ofTree_lossless {t : Tree} (ht : t.SharesNodes) :
    (storeChecked t).run {} = .ok ((store t).run {}) ∧
    (ofTree t).Ordered ∧
    (ofTree t).size = {n : Tree | n.Occurs t}.ncard ∧
    (∃ position : NodeId → Nat, (ofTree t).root = some (position t.id) ∧
      (∀ n : Tree, n.Occurs t →
        (ofTree t).nodes[position n.id]? = some ⟨n.ty, n.shape.map fun c => position c.id⟩) ∧
      ∀ n n' : Tree, n.Occurs t → n'.Occurs t → (n = n' ↔ position n.id = position n'.id)) ∧
    ∃ (i : Nat) (u : Tree), (ofTree t).root = some i ∧ (ofTree t).Expands i u ∧ (ofTree t).rootTree = .ok u ∧
      ∀ next : NodeId, (u.unshare.run next).1.form = t.form := by
  have hstores := fills_store ht t .here {} (Holds.empty t)
  obtain ⟨_, hchecked, rfl, -, hp⟩ := storeChecked_eq_store ht t .here {} (Holds.empty t) Packed.empty
  have hof : ofTree t = ⟨(store t {}).2.nodes, some (store t {}).1⟩ := rfl
  refine ⟨hchecked, ?_⟩
  rw [hof]
  clear hchecked hof
  generalize store t {} = out at hstores hp ⊢
  obtain ⟨i, s⟩ := out
  have hordered : Ordered ⟨s.nodes, some i⟩ := hp.ordered
  have hroot : s.positions[t.id]? ≠ none := hstores.stored t.id (List.mem_singleton_self _)
  have hi : i = s.position t.id := hstores.result _ s.agrees_position
  have hbelow : ∀ n : Tree, n.Occurs t → s.positions[n.id]? ≠ none := fun n hn =>
    hstores.holds.stored_below hp ht hn .here hroot
  -- what the arena expands to is the tree with positions for identities
  have htree : (Arena.trees ⟨s.nodes, some i⟩)[i]? = some (t.rename s.position) := by
    obtain ⟨j, hj⟩ := Option.ne_none_iff_exists'.1 hroot
    rw [hi, s.agrees_position t.id j hj]
    exact hstores.holds.tree ht .here hj s.agrees_position
  refine ⟨hordered, hstores.holds.size_eq hp ht hroot,
    ⟨s.position, congrArg some hi, fun n hn => ?_, fun n n' hn hn' => ?_⟩,
    i, t.rename s.position, rfl, ?_, ?_, fun next => ?_⟩
  · exact hstores.holds.node hp ht hn (hbelow n hn)
  · constructor
    · rintro rfl
      rfl
    · intro heq
      exact ht n n' hn hn' (hstores.holds.position_inj (hbelow n hn) (hbelow n' hn') heq)
  · exact hordered.expands htree
  · exact rootTree_eq_ok rfl htree
  · exact (Tree.form_unshare _ next).trans (Tree.form_rename _ t)

/-- The sum of a number and itself, with one node for both operands, beside the number as a node of its own. -/
def sumOfShared : Tree :=
  let i32 : Ty := .int .i32
  let one : Tree := .node 7 i32 .default
  .node 2 i32 (.cond (.node 5 .bool .default) (.node 4 i32 (.arith .add one one false none)) (.node 3 i32 .default))

theorem ofTree_lossless_sumOfShared :
    sumOfShared.SharesNodes ∧
    (storeChecked sumOfShared).run {} = .ok ((store sumOfShared).run {}) ∧
    (ofTree sumOfShared).Ordered ∧
    (ofTree sumOfShared).size = {n : Tree | n.Occurs sumOfShared}.ncard ∧
    (∃ position : NodeId → Nat, (ofTree sumOfShared).root = some (position sumOfShared.id) ∧
      (∀ n : Tree, n.Occurs sumOfShared →
        (ofTree sumOfShared).nodes[position n.id]? = some ⟨n.ty, n.shape.map fun c => position c.id⟩) ∧
      ∀ n n' : Tree, n.Occurs sumOfShared → n'.Occurs sumOfShared → (n = n' ↔ position n.id = position n'.id)) ∧
    ∃ (i : Nat) (u : Tree), (ofTree sumOfShared).root = some i ∧ (ofTree sumOfShared).Expands i u ∧
      (ofTree sumOfShared).rootTree = .ok u ∧ ∀ next : NodeId, (u.unshare.run next).1.form = sumOfShared.form := by
  have hshares : sumOfShared.SharesNodes := by
    refine Tree.sharesNodes_of_named ?_
    simp only [sumOfShared, Tree.all_node, Shape.children, List.forall_mem_cons, List.not_mem_nil, IsEmpty.forall_iff,
      implies_true, and_true]
    and_intros <;> rfl
  exact ⟨hshares, ofTree_lossless hshares⟩

end Arena

end ExprCompiler
