/-
Trees that go through an arena. Storing a tree gives each of its nodes one position and no two nodes the same
one, so the tree at the root of the arena is the stored tree with its nodes renamed to their positions, and it
compiles to the same units.
-/
import ExprCompiler.Proofs.Compile.Captures
import ExprCompiler.Proofs.Compile.Rename
import ExprCompiler.Tree.Arena

namespace ExprCompiler

theorem Tree.Occurs.sizeOf_le {n t : Tree} (h : n.Occurs t) : sizeOf n ≤ sizeOf t := by
  induction h with
  | here => exact Nat.le_refl _
  | inside child _ ih =>
    have := Shape.sizeOf_child child
    simp only [Tree.node.sizeOf_spec]
    omega

theorem Shape.mapM_map {C D E : Type} {m : Type → Type} [Monad m] [LawfulMonad m] (g : C → D) (f : D → m E)
    (s : Shape C) : (s.map g).mapM f = s.mapM fun c => f (g c) := by
  have hoption : ∀ r : Option C, (r.map g).mapM f = r.mapM fun c => f (g c) := fun r => by cases r <;> rfl
  cases s <;> simp [Shape.map, Shape.mapM, hoption, List.mapM_map, Binding.map, CatchClause.map,
    Function.comp_def]

namespace Arena

/-! ## The trees of an arena -/

theorem size_trees (a : Arena) : a.trees.size = a.nodes.size := by
  unfold trees
  refine Array.foldl_induction (fun i (done : Array Tree) => done.size = i) rfl fun i done h => ?_
  rw [Array.size_push, h]

namespace Filling

/-- The trees that are stored so far. -/
def trees (s : Filling) : Array Tree :=
  Arena.trees ⟨s.nodes, none⟩

theorem size_trees (s : Filling) : s.trees.size = s.nodes.size :=
  Arena.size_trees _

theorem trees_push (s : Filling) (n : ArenaNode) (positions : Std.HashMap NodeId Nat) :
    (Filling.mk (s.nodes.push n) positions).trees =
      s.trees.push (.node s.nodes.size n.ty (n.shape.map fun c => s.trees[c]?.getD default)) := by
  rw [← s.size_trees]
  show Arena.trees ⟨s.nodes.push n, none⟩ = _
  unfold Arena.trees
  rw [Array.foldl_push]
  rfl

/-- A renaming sends the stored nodes to their positions. -/
def Agrees (s : Filling) (g : NodeId → NodeId) : Prop :=
  ∀ (id : NodeId) (i : Nat), s.positions[id]? = some i → g id = i

/-- Stored nodes stay where they are. -/
def Grows (s s' : Filling) : Prop :=
  ∀ (id : NodeId) (i : Nat), s.positions[id]? = some i → s'.positions[id]? = some i

theorem Agrees.of_grows {s s' : Filling} {g : NodeId → NodeId} (h : s'.Agrees g) (hg : s.Grows s') : s.Agrees g :=
  fun id i hi => h id i (hg id i hi)

/-- The stored nodes are nodes of a tree, each at a position of its own, where its tree is found with all
nodes renamed to their positions. -/
structure Holds (root : Tree) (s : Filling) : Prop where
  bound : ∀ (id : NodeId) (i : Nat), s.positions[id]? = some i → i < s.nodes.size
  inj : ∀ (id id' : NodeId) (i : Nat), s.positions[id]? = some i → s.positions[id']? = some i → id = id'
  stored : ∀ (id : NodeId) (i : Nat), s.positions[id]? = some i →
    ∃ n : Tree, n.Occurs root ∧ n.id = id ∧ ∀ g, s.Agrees g → s.trees[i]? = some (n.rename g)

theorem Holds.empty (root : Tree) : ({} : Filling).Holds root where
  bound id i h := by simp at h
  inj id id' i h := by simp at h
  stored id i h := by simp at h

variable {root : Tree} {s : Filling}

/-- The tree of a node is at the position of the node. -/
theorem Holds.tree (h : s.Holds root) (hroot : root.SharesNodes) {t : Tree} (ht : t.Occurs root) {i : Nat}
    (hi : s.positions[t.id]? = some i) {g : NodeId → NodeId} (hg : s.Agrees g) : s.trees[i]? = some (t.rename g) := by
  obtain ⟨n, hn, hid, htree⟩ := h.stored t.id i hi
  obtain rfl := hroot n t hn ht hid
  exact htree g hg

/-- Appends a node whose children are stored. -/
theorem Holds.push (h : s.Holds root) (hroot : root.SharesNodes) {id : NodeId} {ty : Ty} {sh : Shape Tree}
    (ht : Tree.Occurs (.node id ty sh) root) (hnew : s.positions[id]? = none) {shape : Shape Nat}
    (hchildren : ∀ c ∈ sh.children, s.positions[c.id]? ≠ none)
    (hshape : ∀ g, s.Agrees g → shape = sh.map fun c => g c.id) :
    Holds root ⟨s.nodes.push ⟨ty, shape⟩, s.positions.insert id s.nodes.size⟩ ∧
      s.Grows ⟨s.nodes.push ⟨ty, shape⟩, s.positions.insert id s.nodes.size⟩ := by
  have hgrows : s.Grows ⟨s.nodes.push ⟨ty, shape⟩, s.positions.insert id s.nodes.size⟩ := by
    intro id' i hi
    rw [Std.HashMap.getElem?_insert]
    split
    · -- the new node was not there
      rename_i heq
      rw [← eq_of_beq heq, hnew] at hi
      cases hi
    · exact hi
  -- a position is that of the new node or an old one
  have hcases : ∀ {id' : NodeId} {i : Nat}, (s.positions.insert id s.nodes.size)[id']? = some i →
      (id' = id ∧ i = s.nodes.size) ∨ s.positions[id']? = some i := by
    intro id' i hi
    rw [Std.HashMap.getElem?_insert] at hi
    split at hi
    · rename_i heq
      cases hi
      exact .inl ⟨(eq_of_beq heq).symm, rfl⟩
    · exact .inr hi
  refine ⟨⟨fun id' i hi => ?_, fun id₁ id₂ i h₁ h₂ => ?_, fun id' i hi => ?_⟩, hgrows⟩
  · rw [Array.size_push]
    rcases hcases hi with ⟨-, rfl⟩ | hi
    · exact Nat.lt_succ_self _
    · exact Nat.lt_succ_of_lt (h.bound id' i hi)
  · rcases hcases h₁ with ⟨e₁, p₁⟩ | old₁ <;> rcases hcases h₂ with ⟨e₂, p₂⟩ | old₂
    · rw [e₁, e₂]
    · exact absurd (h.bound id₂ i old₂) (by omega)
    · exact absurd (h.bound id₁ i old₁) (by omega)
    · exact h.inj id₁ id₂ i old₁ old₂
  · rcases hcases hi with ⟨rfl, rfl⟩ | hi
    · refine ⟨_, ht, rfl, fun g hg => ?_⟩
      have hgid : g id' = s.nodes.size := hg id' _ Std.HashMap.getElem?_insert_self
      have hgs : s.Agrees g := hg.of_grows hgrows
      have hmap : (shape.map fun c => s.trees[c]?.getD default) = sh.map (Tree.rename g) := by
        rw [hshape g hgs, Shape.map_map]
        refine Shape.map_congr fun c hc => ?_
        obtain ⟨j, hj⟩ := Option.ne_none_iff_exists'.1 (hchildren c hc)
        have hfound : s.trees[g c.id]? = some (c.rename g) := by
          rw [hgs c.id j hj]
          exact h.tree hroot (.trans (.of_child hc) ht) hj hgs
        rw [Function.comp_apply, hfound]
        rfl
      rw [trees_push, ← s.size_trees, Array.getElem?_push_size, s.size_trees, Tree.rename_node, hgid, hmap]
    · obtain ⟨n, hn, hid, htree⟩ := h.stored id' i hi
      refine ⟨n, hn, hid, fun g hg => ?_⟩
      have hne : i ≠ s.trees.size := by
        rw [s.size_trees]
        exact Nat.ne_of_lt (h.bound id' i hi)
      rw [trees_push, Array.getElem?_push, if_neg hne]
      exact htree g (hg.of_grows hgrows)

/-- What a computation does to an arena that holds nodes of `root`: it adds only nodes from `added`, afterwards
the nodes `ids` are there, and its result is `r` of every renaming that sends nodes to their positions. -/
structure Stores {α : Type} (s : Filling) (root : Tree) (added : NodeId → Prop) (ids : List NodeId)
    (r : (NodeId → NodeId) → α) (out : α × Filling) : Prop where
  holds : out.2.Holds root
  grows : s.Grows out.2
  added : ∀ id : NodeId, out.2.positions[id]? ≠ none → s.positions[id]? ≠ none ∨ added id
  stored : ∀ id ∈ ids, out.2.positions[id]? ≠ none
  result : ∀ g, out.2.Agrees g → out.1 = r g

/-- A node is still new when its children are stored, because it is not below itself. -/
theorem Stores.new_after_children {α : Type} {sh : Shape Tree} {ids : List NodeId} {r : (NodeId → NodeId) → α}
    {out : α × Filling} (h : s.Stores root (fun id => ∃ c ∈ sh.children, ∃ n : Tree, n.Occurs c ∧ n.id = id) ids r out)
    (hroot : root.SharesNodes) {id : NodeId} {ty : Ty} (ht : Tree.Occurs (.node id ty sh) root)
    (hnew : s.positions[id]? = none) : out.2.positions[id]? = none := by
  by_contra hfound
  rcases h.added id hfound with hold | ⟨c, hc, n, hn, hid⟩
  · exact hold hnew
  · have heq : n = .node id ty sh := hroot n _ (hn.trans (.trans (.inside hc .here) ht)) ht hid
    have hle := hn.sizeOf_le
    have hlt := Shape.sizeOf_child hc
    rw [heq, Tree.node.sizeOf_spec] at hle
    omega

end Filling

open Filling

/-- The same of all arenas. -/
def Fills {α : Type} (root : Tree) (added : NodeId → Prop) (ids : List NodeId) (r : (NodeId → NodeId) → α)
    (x : StateM Filling α) : Prop :=
  ∀ s : Filling, s.Holds root → s.Stores root added ids r (x s)

namespace Fills

variable {α β C : Type} {root : Tree} {added : NodeId → Prop} {ids ids' : List NodeId} {r : (NodeId → NodeId) → α}
  {x : StateM Filling α}

theorem pure (a : α) : Fills root added [] (fun _ => a) (pure a) := fun s hs =>
  ⟨hs, fun _ _ h => h, fun _ h => .inl h, by simp, fun _ _ => rfl⟩

theorem bind (hx : Fills root added ids r x) {k : α → StateM Filling β} {q : α → (NodeId → NodeId) → β}
    (hk : ∀ a, Fills root added ids' (q a) (k a)) : Fills root added (ids ++ ids') (fun g => q (r g) g) (x >>= k) := by
  intro s hs
  have h₁ := hx s hs
  have h₂ := hk (x s).1 (x s).2 h₁.holds
  show s.Stores root added (ids ++ ids') _ (k (x s).1 (x s).2)
  refine ⟨h₂.holds, fun id i hi => h₂.grows id i (h₁.grows id i hi), fun id hid => ?_, fun id hid => ?_, fun g hg => ?_⟩
  · rcases h₂.added id hid with hid | hid
    · exact h₁.added id hid
    · exact .inr hid
  · rcases List.mem_append.1 hid with hid | hid
    · obtain ⟨i, hi⟩ := Option.ne_none_iff_exists'.1 (h₁.stored id hid)
      rw [h₂.grows id i hi]
      exact Option.some_ne_none i
    · exact h₂.stored id hid
  · rw [h₂.result g hg, h₁.result g (hg.of_grows h₂.grows)]

/-- The names that the rules give to the nodes and the result do not matter. -/
theorem of_eq {r' : (NodeId → NodeId) → α} (h : Fills root added ids r x) (hids : ids = ids') (hr : ∀ g, r g = r' g) :
    Fills root added ids' r' x := by
  subst hids
  intro s hs
  obtain ⟨h₁, h₂, h₃, h₄, h₅⟩ := h s hs
  exact ⟨h₁, h₂, h₃, h₄, fun g hg => (h₅ g hg).trans (hr g)⟩

theorem mono {added' : NodeId → Prop} (h : Fills root added ids r x) (ha : ∀ id, added id → added' id) :
    Fills root added' ids r x := by
  intro s hs
  obtain ⟨h₁, h₂, h₃, h₄, h₅⟩ := h s hs
  exact ⟨h₁, h₂, fun id hid => (h₃ id hid).imp_right (ha id), h₄, h₅⟩

variable {name : C → List NodeId} {f : C → StateM Filling β} {q : C → (NodeId → NodeId) → β}

theorem mapM_list {cs : List C} (h : ∀ c ∈ cs, Fills root added (name c) (q c) (f c)) :
    Fills root added (cs.flatMap name) (fun g => cs.map fun c => q c g) (cs.mapM f) := by
  induction cs with
  | nil => exact .pure []
  | cons c cs ih =>
    rw [List.mapM_cons]
    refine ((h c (by simp)).bind fun d => (ih fun b hb => h b (by simp [hb])).bind fun ds => .pure (d :: ds)).of_eq
      ?_ ?_
    · simp
    · intro g
      rfl

theorem mapM_option {c : Option C} (h : ∀ b ∈ c, Fills root added (name b) (q b) (f b)) :
    Fills root added (c.toList.flatMap name) (fun g => c.map fun c => q c g) (c.mapM f) := by
  cases c with
  | none => exact .pure none
  | some c =>
    refine ((h c rfl).bind fun d => .pure (some d)).of_eq ?_ ?_
    · simp
    · intro g
      rfl

end Fills

/-- Storing the children of a node. -/
theorem fills_mapM {root : Tree} {added : NodeId → Prop} {f : Tree → StateM Filling Nat} {s : Shape Tree}
    (h : ∀ c ∈ s.children, Fills root added [c.id] (fun g => g c.id) (f c)) :
    Fills root added (s.children.map Tree.id) (fun g => s.map fun c => g c.id) (s.mapM f) := by
  have hone : ∀ {c : Tree} (k : Nat → Shape Nat), c ∈ s.children →
      Fills root added [c.id] (fun g => k (g c.id)) (f c >>= fun i => pure (k i)) := fun k hc =>
    ((h _ hc).bind fun i => .pure (k i)).of_eq rfl fun _ => rfl
  have htwo : ∀ {c d : Tree} (k : Nat → Nat → Shape Nat), c ∈ s.children → d ∈ s.children →
      Fills root added [c.id, d.id] (fun g => k (g c.id) (g d.id)) (f c >>= fun i => f d >>= fun j => pure (k i j)) :=
    fun k hc hd => ((h _ hc).bind fun i => (h _ hd).bind fun j => .pure (k i j)).of_eq rfl fun _ => rfl
  have hlist : ∀ cs : List Tree, (∀ c ∈ cs, c ∈ s.children) →
      Fills root added (cs.map Tree.id) (fun g => cs.map fun c => g c.id) (cs.mapM f) := fun cs hcs =>
    (Fills.mapM_list fun c hc => h c (hcs c hc)).of_eq List.map_eq_flatMap.symm fun _ => rfl
  have hitems : ∀ {cs : List Tree} (k : List Nat → Shape Nat), (∀ c ∈ cs, c ∈ s.children) →
      Fills root added (cs.map Tree.id) (fun g => k (cs.map fun c => g c.id)) (cs.mapM f >>= fun is => pure (k is)) :=
    fun k hcs => ((hlist _ hcs).bind fun is => .pure (k is)).of_eq (by simp) fun _ => rfl
  have hoption : ∀ r : Option Tree, (∀ c ∈ r, c ∈ s.children) →
      Fills root added (r.toList.map Tree.id) (fun g => r.map fun c => g c.id) (r.mapM f) := fun r hr =>
    (Fills.mapM_option fun c hc => h c (hr c hc)).of_eq List.map_eq_flatMap.symm fun _ => rfl
  cases s with
  | constant v | parameter p | default => exact .pure _
  | convert e checked m => exact hone (.convert · checked m) (by simp)
  | newArrayOfLength elem n => exact hone (.newArrayOfLength elem ·) (by simp)
  | lambda ps b name => exact hone (.lambda ps · name) (by simp)
  | unary op e checked => exact hone (.unary op · checked) (by simp)
  | arrayIndex a i => exact htwo .arrayIndex (by simp) (by simp)
  | compare op l r m => exact htwo (.compare op · · m) (by simp) (by simp)
  | arith op l r checked m => exact htwo (.arith op · · checked m) (by simp) (by simp)
  | logical op l r => exact htwo (.logical op) (by simp) (by simp)
  | coalesce l r => exact htwo .coalesce (by simp) (by simp)
  | assign t v => exact htwo .assign (by simp) (by simp)
  | cond t a b =>
    exact ((h t (by simp)).bind fun i => (h a (by simp)).bind fun j =>
      (h b (by simp)).bind fun k => .pure (Shape.cond i j k)).of_eq rfl fun _ => rfl
  | call r m args =>
    have hr := hoption r fun c hc => by simp_all
    have hargs := hlist args fun c hc => by simp_all
    refine (hr.bind fun i => hargs.bind fun is => .pure (Shape.call i m is)).of_eq ?_ fun _ => rfl
    simp
  | member r m =>
    have hr := hoption r fun c hc => by simp_all
    refine (hr.bind fun i => .pure (Shape.member i m)).of_eq ?_ fun _ => rfl
    simp
  | throw r =>
    have hr := hoption r fun c hc => by simp_all
    refine (hr.bind fun i => .pure (Shape.throw i)).of_eq ?_ fun _ => rfl
    simp
  | new ctor args => exact hitems (.new ctor) fun c hc => hc
  | newArray elem items => exact hitems (.newArray elem) fun c hc => hc
  | block vars body => exact hitems (.block vars) fun c hc => hc
  | invoke t args =>
    have hargs := hlist args fun c hc => by simp_all
    refine ((h t (by simp)).bind fun i => hargs.bind fun is => .pure (Shape.invoke i is)).of_eq ?_ fun _ => rfl
    simp
  | index r ix args =>
    have hargs := hlist args fun c hc => by simp_all
    refine ((h r (by simp)).bind fun i => hargs.bind fun is => .pure (Shape.index i ix is)).of_eq ?_ fun _ => rfl
    simp
  | memberInit t bs =>
    have hbs : Fills root added (bs.map fun b => b.value.id) (fun g => bs.map fun b => ⟨b.member, g b.value.id⟩)
        (bs.mapM fun b => do return (⟨b.member, ← f b.value⟩ : Binding Nat)) := by
      rw [List.map_eq_flatMap]
      refine .mapM_list fun b hb => ?_
      have hb : b.value ∈ (Shape.memberInit t bs).children := List.mem_cons_of_mem _ (List.mem_map_of_mem hb)
      exact ((h b.value hb).bind fun i => .pure (Binding.mk b.member i)).of_eq rfl fun _ => rfl
    refine ((h t (by simp)).bind fun i => hbs.bind fun is => .pure (Shape.memberInit i is)).of_eq ?_
      fun _ => rfl
    simp
  | guarded b ks fin =>
    have hk : ∀ k ∈ ks, ∀ c ∈ k.children, c ∈ (Shape.guarded b ks fin).children := fun k hk c hc =>
      List.mem_append_left _ (List.mem_cons_of_mem _ (List.mem_flatMap.2 ⟨k, hk, hc⟩))
    have hks : Fills root added (ks.flatMap fun k => k.children.map Tree.id)
        (fun g => ks.map fun k => k.map fun c => g c.id)
        (ks.mapM fun k => do
          let filter ← k.filter.mapM f
          return (⟨k.test, k.var, filter, ← f k.body⟩ : CatchClause Nat)) := by
      refine .mapM_list fun k hk' => ?_
      have hfilter := hoption k.filter fun c hc => hk k hk' c (by simp_all [CatchClause.children])
      have hbody := h k.body (hk k hk' _ (by simp [CatchClause.children]))
      exact (hfilter.bind fun e => hbody.bind fun i => .pure (CatchClause.mk k.test k.var e i)).of_eq
        (by simp [CatchClause.children]) fun _ => rfl
    have hfin := hoption fin fun c hc => by simp_all
    refine ((h b (by simp)).bind fun i => hks.bind fun is => hfin.bind fun e =>
      .pure (Shape.guarded i is e)).of_eq ?_ fun _ => rfl
    simp [List.map_flatMap]

theorem store_node (id : NodeId) (ty : Ty) (sh : Shape Tree) (s : Filling) :
    store (.node id ty sh) s = match s.positions[id]? with
      | some i => (i, s)
      | none =>
        let (shape, s') := sh.mapM store s
        (s'.nodes.size, ⟨s'.nodes.push ⟨ty, shape⟩, s'.positions.insert id s'.nodes.size⟩) := by
  rw [store, Tree.fold_node]
  show (match s.positions[id]? with
    | some i => Pure.pure i
    | none => (sh.map (.of store)).mapM Tree.Child.meaning >>= _ : StateM Filling Nat) s = _
  rw [Shape.mapM_map]
  cases s.positions[id]? <;> rfl

/-- Storing a tree stores its nodes and no others. -/
theorem fills_store {root : Tree} (hroot : root.SharesNodes) (t : Tree) (ht : t.Occurs root) :
    Fills root (fun id => ∃ n : Tree, n.Occurs t ∧ n.id = id) [t.id] (fun g => g t.id) (store t) := by
  induction t using Tree.induct with
  | node id ty sh ih =>
    intro s hs
    have hbelow : ∀ c ∈ sh.children, c.Occurs root := fun c hc => .trans (.inside hc .here) ht
    rw [store_node]
    cases hpos : s.positions[id]? with
    | some i =>
      refine ⟨hs, fun _ _ h => h, fun _ h => .inl h, fun id' hid => ?_, fun g hg => (hg id i hpos).symm⟩
      obtain rfl := List.mem_singleton.1 hid
      exact fun hnone => by cases hnone.symm.trans hpos
    | none =>
      have hc := fills_mapM (fun c hc => (ih c hc (hbelow c hc)).mono fun id' ⟨n, hn, hid⟩ =>
        show ∃ c ∈ sh.children, ∃ n : Tree, n.Occurs c ∧ n.id = id' from ⟨c, hc, n, hn, hid⟩) s hs
      have hnew := hc.new_after_children hroot ht hpos
      obtain ⟨hholds, hgrows⟩ := hc.holds.push hroot ht hnew (fun c hc' => hc.stored c.id (List.mem_map_of_mem hc'))
        hc.result
      refine ⟨hholds, fun id' i hi => hgrows id' i (hc.grows id' i hi), fun id' hid => ?_, fun id' hid => ?_,
        fun g hg => (hg id _ Std.HashMap.getElem?_insert_self).symm⟩
      · by_cases heq : id = id'
        · exact .inr ⟨_, .here, heq⟩
        · have hid : ((sh.mapM store s).2.positions.insert id (sh.mapM store s).2.nodes.size)[id']? ≠ none := hid
          rw [Std.HashMap.getElem?_insert, if_neg (by simpa using heq)] at hid
          rcases hc.added id' hid with hold | ⟨c, hc, n, hn, hid⟩
          · exact .inl hold
          · exact .inr ⟨n, .inside hc hn, hid⟩
      · obtain rfl := List.mem_singleton.1 hid
        exact fun hnone => by cases Std.HashMap.getElem?_insert_self.symm.trans hnone

/-- The tree at the root of the arena of a tree is that tree with its nodes renamed, no two of them to the same
position. -/
theorem rootTree_ofTree {t : Tree} (ht : t.SharesNodes) :
    ∃ f : NodeId → NodeId, Function.Injective f ∧ (ofTree t).rootTree = .ok (t.rename f) := by
  have h := fills_store ht t .here {} (Holds.empty t)
  generalize hout : store t {} = out at h
  obtain ⟨i, s⟩ := out
  -- nodes that are not stored go past the end
  let f : NodeId → NodeId := fun id => s.positions[id]?.getD (s.nodes.size + id)
  have hf : s.Agrees f := fun id j hj => by simp [f, hj]
  refine ⟨f, fun a b hab => ?_, ?_⟩
  · have hbound : ∀ (id : NodeId) (j : Nat), s.positions[id]? = some j → j < s.nodes.size := h.holds.bound
    simp only [f] at hab
    rcases ha : s.positions[a]? with _ | j <;> rcases hb : s.positions[b]? with _ | k <;>
      simp only [ha, hb, Option.getD_none, Option.getD_some] at hab
    · exact Nat.add_left_cancel hab
    · exact absurd (hbound b k hb) (Nat.not_lt.2 (hab ▸ Nat.le_add_right _ a))
    · exact absurd (hbound a j ha) (Nat.not_lt.2 (hab ▸ Nat.le_add_right _ b))
    · exact h.holds.inj a b j ha (hab ▸ hb)
  · obtain ⟨j, hj⟩ := Option.ne_none_iff_exists'.1 (h.stored t.id (List.mem_singleton_self _))
    have hi : i = j := (h.result f hf).trans (hf t.id j hj)
    have htree : s.trees[i]? = some (t.rename f) := hi ▸ h.holds.tree ht .here hj hf
    have hof : ofTree t = ⟨s.nodes, some i⟩ := by
      unfold ofTree
      rw [show (store t).run {} = (i, s) from hout]
    rw [hof]
    show Arena.tree ⟨s.nodes, some i⟩ i = _
    rw [Arena.tree, show (Arena.trees ⟨s.nodes, some i⟩)[i]? = _ from htree]

end Arena

namespace CompileM

/-- A tree and the tree that its arena holds at the root compile in the same way: they are refused for the same
reason, or they give the same artifact and the same units, down to those in closures. The nodes of the two trees
correspond one to one. -/
theorem compile_rootTree_ofTree {t : Tree} (ht : t.SharesNodes) :
    ∃ f : NodeId → NodeId, Function.Injective f ∧ (Arena.ofTree t).rootTree = .ok (t.rename f) ∧
      (∀ params requested, compile (t.rename f) params requested = compile t params requested) ∧
      compileLambda (t.rename f) = compileLambda t := by
  obtain ⟨f, hf, htree⟩ := Arena.rootTree_ofTree ht
  exact ⟨f, hf, htree, fun params requested => compile_rename hf t params requested, compileLambda_rename hf t⟩

/-- Adds the results of two calls of one lambda node, whose body is a default value. -/
def calledTwice : Tree :=
  let i32 : Ty := .int .i32
  let one : Tree := .node 31 (Signature.toTy ⟨[], i32⟩) (.lambda [] (.node 40 i32 .default) none)
  .node 10 i32 (.arith .add (.node 25 i32 (.invoke one [])) (.node 22 i32 (.invoke one [])) false none)

theorem compile_rootTree_ofTree_calledTwice :
    calledTwice.SharesNodes ∧ ∃ f : NodeId → NodeId, Function.Injective f ∧
      (Arena.ofTree calledTwice).rootTree = .ok (calledTwice.rename f) ∧
      (∀ params requested, compile (calledTwice.rename f) params requested = compile calledTwice params requested) ∧
      compileLambda (calledTwice.rename f) = compileLambda calledTwice := by
  have hshares : calledTwice.SharesNodes := by
    refine Tree.sharesNodes_of_named ?_
    simp only [calledTwice, Tree.all_node, Shape.children, List.forall_mem_cons, List.not_mem_nil, IsEmpty.forall_iff,
      implies_true, and_true]
    and_intros <;> rfl
  exact ⟨hshares, compile_rootTree_ofTree hshares⟩

end CompileM

end ExprCompiler
