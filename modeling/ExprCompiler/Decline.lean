/-
Why the compiler declines a tree. Declining is no failure: the tree can still be evaluated.
-/
import ExprCompiler.Tree

namespace ExprCompiler

/-- Constructs without a compiled form. -/
inductive Unsupported
  | voidValue
  | callMismatch (method : String)
  | readMismatch (member : String)
  | tooMany (what : String)
  | conversion (source target : Ty)
  | noSetter (property : String)
  | readOnly (target : String)
  | noOperator (op : String) (left right : Ty)
  | undefinedFor (op : String) (ty : Ty)
  | logicalOver (op : String) (left right : Ty)
  | testType (ty : Ty)
  | notAssignable (kind : String)
  | catchFilter
  | rethrowOutside
  | notLambda (kind : String)
  | lambdaTyped (ty : Ty)
  | returnsVoid (name : String) (sig : Signature)
  | requestedArity (sig : Signature) (count : Nat)
  | requestedParam (p : Param) (ty : Ty)
  | requestedResult (body ret : Ty)
deriving DecidableEq

def Unsupported.message : Unsupported → String
  | .voidValue => "void expression used as a value"
  | .callMismatch method => "receiver mismatch calling " ++ method
  | .readMismatch member => "receiver mismatch reading " ++ member
  | .tooMany what => "more than 65535 " ++ what
  | .conversion source target => "conversion from " ++ source.text ++ " to " ++ target.text
  | .noSetter property => s!"property `{property}` has no setter"
  | .readOnly target => target ++ " is read-only"
  | .noOperator op left right => s!"no {op} operator for " ++ left.text ++ " and " ++ right.text
  | .undefinedFor op ty => op ++ " is not defined for " ++ ty.text
  | .logicalOver op left right => op ++ " over " ++ left.text ++ " and " ++ right.text
  | .testType ty => "conditional test of type " ++ ty.text
  | .notAssignable kind => "assignment to " ++ kind
  | .catchFilter => "catch filter"
  | .rethrowOutside => "rethrow outside a catch body"
  | .notLambda kind => kind ++ " is not a lambda"
  | .lambdaTyped ty => "lambda typed " ++ ty.text
  | .returnsVoid name sig => name ++ " returns void but is typed " ++ sig.text
  | .requestedArity sig count => "requested " ++ sig.text ++ s!" for a tree with {count} parameters"
  | .requestedParam p ty => "parameter " ++ p.name ++ " is " ++ p.ty.text ++ ", requested " ++ ty.text
  | .requestedResult body ret => "tree of type " ++ body.text ++ " does not produce " ++ ret.text

/-- Why the compiler declines a tree. -/
inductive Decline
  | unsupported (u : Unsupported)
  /-- A parameter is used where nothing declares it. -/
  | invalidCapture (name : String)
deriving DecidableEq

def Decline.message : Decline → String
  | .unsupported u => "unsupported construct: " ++ u.message
  | .invalidCapture name => s!"parameter `{name}` is not declared in any enclosing scope"

/-- How a compilation ends without an artifact. -/
inductive Refusal
  | declined (d : Decline)
  | defect (d : Defect)

end ExprCompiler
