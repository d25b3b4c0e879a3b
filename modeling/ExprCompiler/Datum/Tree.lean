/-
Trees as data. Every form is a new node; a node is shared only by its name or by repetition.
-/
import ExprCompiler.Datum.Value
import ExprCompiler.Tree.Build

namespace ExprCompiler.Datum

open ReadM

def newNode : ReadM NodeId :=
  modifyGet fun s => (s.nextNode, { s with nextNode := s.nextNode + 1 })

/-- A list of trees, in which one node may be repeated. -/
def repeated (tree : Datum → ReadM Tree) (d : Datum) : ReadM (List Tree) := do
  let parts ← d.many fun item =>
    match item "repeat" with
    | .list [count, e] => return List.replicate (← count.natural) (← tree e)
    | _ => return [← tree item]
  return parts.flatten

/-- A catch clause: the type, the variable, the body, and a filter that may be absent. -/
def clause (tree : Datum → ReadM Tree) : Datum → ReadM (CatchClause Tree)
  | .list (test :: var :: body :: filter) =>
    return ⟨← test.ty, ← var.maybe param, ← (filter.headD .null).maybe tree, ← tree body⟩
  | _ => malformed "a catch clause"

/-- A tree. -/
def tree : Datum → ReadM Tree :=
  inward fun tree d => do
    let trees := repeated tree
    let id ← newNode
    match ← d.form with
    | ("node", [name]) => name.named (·.nodes)
    | ("const", t :: v) => return .constant id (← (v.headD .null).value) (← t.ty)
    | ("int", [n]) => return .int id (← n.integer)
    | ("long", [n]) => return .long id (← n.decimal)
    | ("bool", [b]) => return .bool id (← b.boolean)
    | ("str", [s]) => return .string id (← s.string)
    | ("null", [t]) => return .null id (← t.ty)
    | ("p", [p]) => return .param id (← p.param)
    | ("conv", [t, e]) => return .convert id (← tree e) (← t.ty) false
    | ("convc", [t, e]) => return .convert id (← tree e) (← t.ty) true
    | ("convm", [m, e]) => return .convertBy id (← tree e) (← m.method)
    | ("aidx", [a, i]) => return .arrayIndex id (← tree a) (← tree i)
    | ("call", [r, m, args]) => return .call id (← r.maybe tree) (← m.method) (← trees args)
    | ("member", [r, m]) => check (Tree.member id (← r.maybe tree) (← m.member))
    | ("new", [c, args]) => return .new id (← c.constructor) (← trees args)
    | ("newarr", [t, es]) => return .newArray id (← t.ty) (← trees es)
    | ("newarrlen", [t, e]) => return .newArrayOfLength id (← t.ty) (← tree e)
    | ("init", [e, bs]) =>
      let target ← tree e
      let bindings ← bs.many (pair member tree)
      return .memberInit id target (bindings.map fun (m, e) => ⟨m, e⟩)
    | ("lambda", ps :: e :: name) =>
      return .lambda id (← ps.many param) (← tree e) (← (name.headD .null).maybe string)
    | ("invoke", [e, args]) => return .invoke id (← tree e) (← trees args)
    | ("cmp", [op, l, r]) => return .compare id (← op.cmpOp) (← tree l) (← tree r)
    | ("cmpm", [op, l, r, m]) =>
      return .compareBy id (← op.cmpOp) (← tree l) (← tree r) (← m.method)
    | ("arith", [op, l, r]) => return .arith id (← op.arithOp) (← tree l) (← tree r) false
    | ("arithc", [op, l, r]) => return .arith id (← op.arithOp) (← tree l) (← tree r) true
    | ("arithm", [op, l, r, m]) =>
      return .arithBy id (← op.arithOp) (← tree l) (← tree r) (← m.method)
    | ("neg", [e]) => return .negate id (← tree e) false
    | ("negc", [e]) => return .negate id (← tree e) true
    | ("not", [e]) => return .not id (← tree e)
    | ("len", [e]) => return .arrayLength id (← tree e)
    | ("and", [l, r]) => return .logical id .andAlso (← tree l) (← tree r)
    | ("or", [l, r]) => return .logical id .orElse (← tree l) (← tree r)
    | ("coalesce", [l, r]) => return .coalesce id (← tree l) (← tree r)
    | ("if", [t, a, b]) => return .cond id (← tree t) (← tree a) (← tree b)
    | ("ift", [ty, t, a, b]) =>
      return (Tree.cond id (← tree t) (← tree a) (← tree b)).retype id (← ty.ty)
    | ("assign", [t, v]) => return .assign id (← tree t) (← tree v)
    | ("block", [ps, es]) => return .block id (← ps.many param) (← trees es)
    | ("blockt", [t, ps, es]) =>
      return (Tree.block id (← ps.many param) (← trees es)).retype id (← t.ty)
    | ("try", e :: clauses :: final) =>
      return .guarded id (← tree e) (← clauses.many (clause tree))
        (← (final.headD .null).maybe tree)
    | ("throw", [e]) => return .throw id (← tree e)
    | ("throwt", [t, e]) => return (Tree.throw id (← tree e)).retype id (← t.ty)
    | ("rethrow", []) => return .rethrow id
    | ("default", [t]) => return .defaultOf id (← t.ty)
    | ("index", [r, ix, args]) => return .index id (← tree r) (← ix.indexer) (← trees args)
    | ("as", [t, e]) => return (← tree e).retype id (← t.ty)
    | _ => malformed "a tree"

end ExprCompiler.Datum
