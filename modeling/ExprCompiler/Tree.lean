/-
Expression trees. A node has an identity, a result type and a shape; the shape holds the children
and is the same type for trees and for arenas, where children are positions. Nodes with equal
identities are one node that several parents share.

Every pass over trees is a `fold`: it gives a node a meaning from the meanings of its children. The
children's meanings are worked out where they are asked for, so that a pass which leaves out what it
has seen, or takes one of two branches, does not pay for the rest.
-/
import ExprCompiler.Member

namespace ExprCompiler

/-- A formal parameter or a variable of a block. Its serial number tells apart tokens with the
same name and type. -/
structure Param where
  serial : Nat
  name : String
  ty : Ty
deriving DecidableEq

/-- The listing form of a parameter. -/
def Param.describe (p : Param) : String :=
  p.name ++ ": " ++ p.ty.text

/-- One assignment of a member initialiser. -/
structure Binding (C : Type) where
  member : Member
  value : C

/-- A catch clause. The variable is bound to the exception in the filter and the body. -/
structure CatchClause (C : Type) where
  test : Ty
  var : Option Param
  filter : Option C
  body : C

/-- The kinds of nodes, with children of type `C`. -/
inductive Shape (C : Type)
  | constant (v : Value)
  | parameter (p : Param)
  | convert (operand : C) (checked : Bool) (method : Option Method)
  | arrayIndex (array index : C)
  | call (receiver : Option C) (method : Method) (args : List C)
  | member (receiver : Option C) (member : Member)
  | new (ctor : Constructor) (args : List C)
  | newArray (elem : Ty) (items : List C)
  | newArrayOfLength (elem : Ty) (length : C)
  | memberInit (target : C) (bindings : List (Binding C))
  | lambda (params : List Param) (body : C) (name : Option String)
  | invoke (target : C) (args : List C)
  | compare (op : CmpOp) (left right : C) (method : Option Method)
  | arith (op : ArithOp) (left right : C) (checked : Bool) (method : Option Method)
  | unary (op : UnaryOp) (operand : C) (checked : Bool)
  | logical (op : LogicalOp) (left right : C)
  | coalesce (left right : C)
  | cond (test ifTrue ifFalse : C)
  | assign (target value : C)
  | block (vars : List Param) (body : List C)
  | guarded (body : C) (handlers : List (CatchClause C)) (final : Option C)
  /-- Without an operand, throws the exception being handled again. -/
  | throw (operand : Option C)
  | default
  | index (receiver : C) (indexer : Indexer) (args : List C)

namespace Binding

def map {C D : Type} (f : C → D) (b : Binding C) : Binding D :=
  ⟨b.member, f b.value⟩

end Binding

namespace CatchClause

def map {C D : Type} (f : C → D) (c : CatchClause C) : CatchClause D :=
  ⟨c.test, c.var, c.filter.map f, f c.body⟩

/-- The children of a clause in evaluation order. -/
def children {C : Type} (c : CatchClause C) : List C :=
  c.filter.toList ++ [c.body]

end CatchClause

namespace Shape

variable {C D : Type}

/-- The name of the node's kind. -/
def kind : Shape C → String
  | .constant _ => "Constant"
  | .parameter _ => "Parameter"
  | .convert _ _ _ => "Convert"
  | .arrayIndex _ _ => "ArrayIndex"
  | .call _ _ _ => "Call"
  | .member _ _ => "MemberAccess"
  | .new _ _ => "New"
  | .newArray _ _ => "NewArray"
  | .newArrayOfLength _ _ => "NewArray"
  | .memberInit _ _ => "MemberInit"
  | .lambda _ _ _ => "Lambda"
  | .invoke _ _ => "Invoke"
  | .compare _ _ _ _ => "Comparison"
  | .arith _ _ _ _ _ => "Arithmetic"
  | .unary _ _ _ => "Unary"
  | .logical _ _ _ => "Logical"
  | .coalesce _ _ => "Coalesce"
  | .cond _ _ _ => "Conditional"
  | .assign _ _ => "Assign"
  | .block _ _ => "Block"
  | .guarded _ _ _ => "Try"
  | .throw _ => "Throw"
  | .default => "Default"
  | .index _ _ _ => "Index"

/-- The shape with every child replaced by its image. -/
def map (f : C → D) : Shape C → Shape D
  | .constant v => .constant v
  | .parameter p => .parameter p
  | .convert e checked m => .convert (f e) checked m
  | .arrayIndex a i => .arrayIndex (f a) (f i)
  | .call r m args => .call (r.map f) m (args.map f)
  | .member r m => .member (r.map f) m
  | .new ctor args => .new ctor (args.map f)
  | .newArray elem items => .newArray elem (items.map f)
  | .newArrayOfLength elem n => .newArrayOfLength elem (f n)
  | .memberInit t bs => .memberInit (f t) (bs.map (Binding.map f))
  | .lambda ps b name => .lambda ps (f b) name
  | .invoke t args => .invoke (f t) (args.map f)
  | .compare op l r m => .compare op (f l) (f r) m
  | .arith op l r checked m => .arith op (f l) (f r) checked m
  | .unary op e checked => .unary op (f e) checked
  | .logical op l r => .logical op (f l) (f r)
  | .coalesce l r => .coalesce (f l) (f r)
  | .cond t a b => .cond (f t) (f a) (f b)
  | .assign t v => .assign (f t) (f v)
  | .block vars body => .block vars (body.map f)
  | .guarded b hs fin => .guarded (f b) (hs.map (CatchClause.map f)) (fin.map f)
  | .throw e => .throw (e.map f)
  | .default => .default
  | .index r ix args => .index (f r) ix (args.map f)

/-- The children in evaluation order. -/
def children : Shape C → List C
  | .constant _ | .parameter _ | .default => []
  | .convert e _ _ => [e]
  | .arrayIndex a i => [a, i]
  | .call r _ args => r.toList ++ args
  | .member r _ => r.toList
  | .new _ args => args
  | .newArray _ items => items
  | .newArrayOfLength _ n => [n]
  | .memberInit t bs => t :: bs.map Binding.value
  | .lambda _ b _ => [b]
  | .invoke t args => t :: args
  | .compare _ l r _ => [l, r]
  | .arith _ l r _ _ => [l, r]
  | .unary _ e _ => [e]
  | .logical _ l r => [l, r]
  | .coalesce l r => [l, r]
  | .cond t a b => [t, a, b]
  | .assign t v => [t, v]
  | .block _ body => body
  | .guarded b hs fin => b :: hs.flatMap CatchClause.children ++ fin.toList
  | .throw e => e.toList
  | .index r _ args => r :: args

end Shape

/-- The identity of a node. -/
abbrev NodeId := Nat

inductive Tree
  | node (id : NodeId) (ty : Ty) (shape : Shape Tree)

namespace Tree

def id : Tree → NodeId
  | .node i _ _ => i

def ty : Tree → Ty
  | .node _ t _ => t

def shape : Tree → Shape Tree
  | .node _ _ s => s

instance : Inhabited Tree := ⟨.node 0 .void .default⟩

def kind (t : Tree) : String :=
  t.shape.kind

def children (t : Tree) : List Tree :=
  t.shape.children

/-- The listing form of a node. -/
def describe (t : Tree) : String :=
  t.kind ++ ": " ++ t.ty.text

/-! ## Folds -/

/-- A child of a node with its meaning. -/
structure Child (α : Type) where
  node : Tree
  later : Thunk α

namespace Child

variable {α : Type}

def ty (c : Child α) : Ty :=
  c.node.ty

def meaning (c : Child α) : α :=
  c.later.get

/-- A tree whose meaning is given by a function. -/
def of (f : Tree → α) (t : Tree) : Child α :=
  ⟨t, .mk fun _ => f t⟩

@[simp] theorem node_of (f : Tree → α) (t : Tree) : (of f t).node = t := rfl

@[simp] theorem meaning_of (f : Tree → α) (t : Tree) : (of f t).meaning = f t := rfl

@[simp] theorem ty_of (f : Tree → α) (t : Tree) : (of f t).ty = t.ty := rfl

end Child

section

variable {α : Type} (alg : NodeId → Ty → Shape (Child α) → α)

mutual

/-- The meaning of a tree: `alg` makes a node's meaning from its children with theirs. -/
def fold (t : Tree) : α :=
  match t with
  | .node id ty s => alg id ty (foldShape s)
termination_by structural t

def foldShape (s : Shape Tree) : Shape (Child α) :=
  match s with
  | .constant v => .constant v
  | .parameter p => .parameter p
  | .convert e checked m => .convert ⟨e, .mk fun _ => fold e⟩ checked m
  | .arrayIndex a i => .arrayIndex ⟨a, .mk fun _ => fold a⟩ ⟨i, .mk fun _ => fold i⟩
  | .call r m args => .call (foldOption r) m (foldList args)
  | .member r m => .member (foldOption r) m
  | .new ctor args => .new ctor (foldList args)
  | .newArray elem items => .newArray elem (foldList items)
  | .newArrayOfLength elem n => .newArrayOfLength elem ⟨n, .mk fun _ => fold n⟩
  | .memberInit t bs => .memberInit ⟨t, .mk fun _ => fold t⟩ (foldBindings bs)
  | .lambda ps b name => .lambda ps ⟨b, .mk fun _ => fold b⟩ name
  | .invoke t args => .invoke ⟨t, .mk fun _ => fold t⟩ (foldList args)
  | .compare op l r m => .compare op ⟨l, .mk fun _ => fold l⟩ ⟨r, .mk fun _ => fold r⟩ m
  | .arith op l r checked m => .arith op ⟨l, .mk fun _ => fold l⟩ ⟨r, .mk fun _ => fold r⟩ checked m
  | .unary op e checked => .unary op ⟨e, .mk fun _ => fold e⟩ checked
  | .logical op l r => .logical op ⟨l, .mk fun _ => fold l⟩ ⟨r, .mk fun _ => fold r⟩
  | .coalesce l r => .coalesce ⟨l, .mk fun _ => fold l⟩ ⟨r, .mk fun _ => fold r⟩
  | .cond t a b => .cond ⟨t, .mk fun _ => fold t⟩ ⟨a, .mk fun _ => fold a⟩ ⟨b, .mk fun _ => fold b⟩
  | .assign t v => .assign ⟨t, .mk fun _ => fold t⟩ ⟨v, .mk fun _ => fold v⟩
  | .block vars body => .block vars (foldList body)
  | .guarded b hs fin => .guarded ⟨b, .mk fun _ => fold b⟩ (foldClauses hs) (foldOption fin)
  | .throw e => .throw (foldOption e)
  | .default => .default
  | .index r ix args => .index ⟨r, .mk fun _ => fold r⟩ ix (foldList args)
termination_by structural s

def foldOption (t : Option Tree) : Option (Child α) :=
  match t with
  | none => none
  | some t => some ⟨t, .mk fun _ => fold t⟩
termination_by structural t

def foldList (ts : List Tree) : List (Child α) :=
  match ts with
  | [] => []
  | t :: ts => ⟨t, .mk fun _ => fold t⟩ :: foldList ts
termination_by structural ts

def foldBinding (b : Binding Tree) : Binding (Child α) :=
  match b with
  | ⟨m, v⟩ => ⟨m, ⟨v, .mk fun _ => fold v⟩⟩
termination_by structural b

def foldBindings (bs : List (Binding Tree)) : List (Binding (Child α)) :=
  match bs with
  | [] => []
  | b :: bs => foldBinding b :: foldBindings bs
termination_by structural bs

def foldClause (c : CatchClause Tree) : CatchClause (Child α) :=
  match c with
  | ⟨test, var, filter, body⟩ => ⟨test, var, foldOption filter, ⟨body, .mk fun _ => fold body⟩⟩
termination_by structural c

def foldClauses (cs : List (CatchClause Tree)) : List (CatchClause (Child α)) :=
  match cs with
  | [] => []
  | c :: cs => foldClause c :: foldClauses cs
termination_by structural cs

end

@[simp] theorem foldOption_eq (t : Option Tree) :
    foldOption alg t = t.map (Child.of (fold alg)) := by
  cases t <;> simp [foldOption, Child.of]

@[simp] theorem foldList_eq (ts : List Tree) :
    foldList alg ts = ts.map (Child.of (fold alg)) := by
  induction ts with
  | nil => simp [foldList]
  | cons t ts ih => simp [foldList, Child.of, ih]

@[simp] theorem foldBindings_eq (bs : List (Binding Tree)) :
    foldBindings alg bs = bs.map (Binding.map (Child.of (fold alg))) := by
  induction bs with
  | nil => simp [foldBindings]
  | cons b bs ih => cases b; simp [foldBindings, foldBinding, Binding.map, Child.of, ih]

@[simp] theorem foldClauses_eq (cs : List (CatchClause Tree)) :
    foldClauses alg cs = cs.map (CatchClause.map (Child.of (fold alg))) := by
  induction cs with
  | nil => simp [foldClauses]
  | cons c cs ih => cases c; simp [foldClauses, foldClause, CatchClause.map, Child.of, ih]

theorem foldShape_eq (s : Shape Tree) :
    foldShape alg s = s.map (Child.of (fold alg)) := by
  cases s <;> simp [foldShape, Shape.map, Child.of]

/-- A node's meaning is made from its children's. -/
theorem fold_node (id : NodeId) (ty : Ty) (s : Shape Tree) :
    fold alg (.node id ty s) = alg id ty (s.map (Child.of (fold alg))) := by
  rw [fold, foldShape_eq]

end

end Tree

end ExprCompiler
