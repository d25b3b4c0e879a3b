/-
Arenas: trees stored as one array of nodes that refer to their children by position. A child stands
before its parents, so a position always denotes a tree.
-/
import Std.Data.HashMap
import ExprCompiler.Tree

namespace ExprCompiler

namespace Shape

variable {C D : Type} {m : Type → Type} [Monad m]

/-- The shape with every child replaced by the result of an action, in evaluation order. -/
def mapM (f : C → m D) : Shape C → m (Shape D)
  | .constant v => return .constant v
  | .parameter p => return .parameter p
  | .convert e checked me => return .convert (← f e) checked me
  | .arrayIndex a i => return .arrayIndex (← f a) (← f i)
  | .call r me args => return .call (← r.mapM f) me (← args.mapM f)
  | .member r me => return .member (← r.mapM f) me
  | .new ctor args => return .new ctor (← args.mapM f)
  | .newArray elem items => return .newArray elem (← items.mapM f)
  | .newArrayOfLength elem n => return .newArrayOfLength elem (← f n)
  | .memberInit t bs =>
    return .memberInit (← f t) (← bs.mapM fun b => return ⟨b.member, ← f b.value⟩)
  | .lambda ps b name => return .lambda ps (← f b) name
  | .invoke t args => return .invoke (← f t) (← args.mapM f)
  | .compare op l r me => return .compare op (← f l) (← f r) me
  | .arith op l r checked me => return .arith op (← f l) (← f r) checked me
  | .unary op e checked => return .unary op (← f e) checked
  | .logical op l r => return .logical op (← f l) (← f r)
  | .coalesce l r => return .coalesce (← f l) (← f r)
  | .cond t a b => return .cond (← f t) (← f a) (← f b)
  | .assign t v => return .assign (← f t) (← f v)
  | .block vars body => return .block vars (← body.mapM f)
  | .guarded b hs fin => do
    let b ← f b
    let hs ← hs.mapM fun c => do
      let filter ← c.filter.mapM f
      return ⟨c.test, c.var, filter, ← f c.body⟩
    return .guarded b hs (← fin.mapM f)
  | .throw e => return .throw (← e.mapM f)
  | .default => return .default
  | .index r ix args => return .index (← f r) ix (← args.mapM f)

end Shape

/-- A node of an arena. -/
structure ArenaNode where
  ty : Ty
  shape : Shape Nat

structure Arena where
  nodes : Array ArenaNode := #[]
  root : Option Nat := none

namespace Arena

def size (a : Arena) : Nat :=
  a.nodes.size

/-- Appends a node and gives its position. Its children must be there already. -/
def push (a : Arena) (ty : Ty) (shape : Shape Nat) : Except Defect (Nat × Arena) :=
  match shape.children.find? (a.size ≤ ·) with
  | some child => .error (.childAfterParent child)
  | none => .ok (a.size, { a with nodes := a.nodes.push ⟨ty, shape⟩ })

/-- The node at a position. -/
def get (a : Arena) (i : Nat) : Except Defect ArenaNode :=
  match a.nodes[i]? with
  | some n => .ok n
  | none => .error (.outOfBounds a.size i)

/-- The position of the root. -/
def getRoot (a : Arena) : Except Defect Nat :=
  match a.root with
  | some i => .ok i
  | none => .error .noRoot

/-! ## Trees into arenas -/

/-- An arena being filled, with the positions of the nodes that it already holds. -/
structure Filling where
  nodes : Array ArenaNode := #[]
  positions : Std.HashMap NodeId Nat := {}

/-- Stores a tree unless it is there already. -/
def store : Tree → StateM Filling Nat :=
  Tree.fold fun id ty shape => do
    let filled ← MonadState.get
    match filled.positions[id]? with
    | some i => return i
    | none =>
      let shape ← shape.mapM Tree.Child.meaning
      modifyGet fun a =>
        (a.nodes.size,
          { nodes := a.nodes.push ⟨ty, shape⟩, positions := a.positions.insert id a.nodes.size })

/-- The arena of a tree. A shared node is stored once, and a parent stands after its children. -/
def ofTree (t : Tree) : Arena :=
  let (root, filled) := (store t).run {}
  ⟨filled.nodes, some root⟩

/-! ## Arenas into trees -/

/-- The trees at all positions. The identity of a node is its position. -/
def trees (a : Arena) : Array Tree :=
  a.nodes.foldl
    (fun done n => done.push (.node done.size n.ty (n.shape.map fun c => done[c]?.getD default)))
    #[]

/-- The tree at a position. -/
def tree (a : Arena) (i : Nat) : Except Defect Tree :=
  match a.trees[i]? with
  | some t => .ok t
  | none => .error (.outOfBounds a.size i)

/-- The tree at the root. -/
def rootTree (a : Arena) : Except Defect Tree :=
  a.getRoot >>= a.tree

end Arena

/-- The same tree without sharing: every occurrence of a node becomes a node of its own, with a
fresh identity. -/
def Tree.unshare : Tree → StateM NodeId Tree :=
  Tree.fold fun _ ty shape => do
    let shape ← shape.mapM Tree.Child.meaning
    modifyGet fun next => (.node next ty shape, next + 1)

/-! ## Listings -/

/-- What `entry` says of each node, parents first, before the rest of a listing. -/
def Tree.listing {α : Type} (entry : NodeId → Ty → Shape (Tree.Child (List α → List α)) → α) :
    Tree → List α → List α :=
  Tree.fold fun id ty shape rest =>
    entry id ty shape :: shape.children.foldr (fun c => c.meaning) rest

/-- Kind, type and number of children of each node, parents first. -/
def Tree.preorder (t : Tree) : List (String × Ty × Nat) :=
  t.listing (fun _ ty shape => (shape.kind, ty, shape.children.length)) []

/-- Position, kind, type and positions of the children of each node below a tree of an arena,
parents first. -/
def Tree.preorderIds (t : Tree) : List (NodeId × String × Ty × List NodeId) :=
  t.listing (fun id ty shape => (id, shape.kind, ty, shape.children.map fun c => c.node.id)) []

end ExprCompiler
