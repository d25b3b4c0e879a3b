/-
Declarations as data. A record holds one list for each kind of declaration; they are made in a
fixed order, and each may use the names declared before it.
-/
import ExprCompiler.Datum.Script
import ExprCompiler.Datum.Tree

namespace ExprCompiler.Datum

open ReadM

/-- Makes each declaration of a list of records, which have names. -/
def each (d : Datum) (make : String → Datum → ReadM (Environment → Environment)) : ReadM Unit :=
  discard <| d.many fun item => do modify (← make (← (item "name").string) item)

/-- Makes each declaration of a list of pairs of a name and a datum. -/
def eachPair {α : Type} (d : Datum) (read : Datum → ReadM α) (make : String → α → Environment → Environment) :
    ReadM Unit :=
  discard <| d.many fun item => do
    let (name, a) ← pair string read item
    modify (make name a)

/-- A class: its own fields, then its base, whose fields come first. -/
def declareClass (name : String) (d : Datum) : ReadM (Environment → Environment) := do
  let own ← (d "fields").many (pair string ty)
  let draft : ClassDraft := { name, valueType := ← ((d "struct").maybe boolean).map (·.getD false) }
  let draft := own.foldl (fun draft (name, ty) => draft.field name ty) draft
  let draft := match ← (d "base").maybe cls with
    | some base => draft.extending base
    | none => draft
  return fun s =>
    { s with classes := (name, draft.finish s.nextClass) :: s.classes, nextClass := s.nextClass + 1 }

def declareDelegate (name : String) (d : Datum) : ReadM (Environment → Environment) := do
  let fn ← (d "impl").routine .free name
  return fun s => { s with delegates := (name, .func (.host fn)) :: s.delegates }

def declareMethod (name : String) (d : Datum) : ReadM (Environment → Environment) := do
  let receiver ← (d "recv").maybe ty
  let params ← (d "params").tys
  let ret ← (d "ret").ty
  let fn ← (d "impl").routine (if receiver.isSome then .method else .free) name
  return fun s => { s with methods := (name, ⟨name, receiver, params, ret, fn⟩) :: s.methods }

def declareConstructor (name : String) (d : Datum) : ReadM (Environment → Environment) := do
  let ty ← (d "type").ty
  let params ← (d "params").tys
  let fn ← (d "impl").routine .free name
  return fun s => { s with constructors := (name, ⟨ty, params, fn⟩) :: s.constructors }

def declareProperty (name : String) (d : Datum) : ReadM (Environment → Environment) := do
  let ty ← (d "type").ty
  let getter ← (d "get").routine .getter name
  let setter ← (d "set").maybe (routine .setter name)
  return fun s => { s with properties := (name, ⟨name, ty, getter, setter⟩) :: s.properties }

def declareIndexer (name : String) (d : Datum) : ReadM (Environment → Environment) := do
  let owner ← (d "owner").ty
  let params ← (d "params").tys
  let ty ← (d "type").ty
  let getter ← (d "get").routine .getter name
  let setter ← (d "set").maybe (routine .setter name)
  return fun s => { s with indexers := (name, ⟨owner, params, ty, getter, setter⟩) :: s.indexers }

def overload (d : Datum) : ReadM Overload :=
  return ⟨← (d "class").cls, ← (d "op").operator, ← (d "method").method⟩

def declareStatic (name : String) (d : Datum) : ReadM (Environment → Environment) := do
  let ty ← (d "type").ty
  let initial ← (d "init").value
  let id ← allocate fun h => (h.statics.size, { h with statics := h.statics.push initial })
  return fun s => { s with statics := s.statics ++ [(name, ⟨id, name, ty⟩)] }

/-- A parameter token. Its name is the key up to the first number sign. -/
def declareParam (key : String) (ty : Ty) (s : Environment) : Environment :=
  let name := (key.splitOn "#").headD ""
  { s with params := (key, ⟨s.nextParam, name, ty⟩) :: s.params, nextParam := s.nextParam + 1 }

/-- Makes all declarations of a record. -/
def declare (d : Datum) : ReadM Unit := do
  (d "classes").each declareClass
  (d "delegates").each declareDelegate
  (d "methods").each declareMethod
  (d "ctors").each declareConstructor
  (d "props").each declareProperty
  (d "indexers").each declareIndexer
  let overloads ← (d "operators").many overload
  modify fun s => { s with operators := s.operators ++ overloads }
  (d "values").eachPair value fun name v s => { s with values := (name, v) :: s.values }
  (d "statics").each declareStatic
  (d "vars").eachPair ty declareParam
  (d "nodes").eachPair tree fun name t s => { s with nodes := (name, t) :: s.nodes }

/-- The signature that a caller asks for; null asks for none. -/
def requested : Datum → ReadM Requested :=
  maybe fun d => return ⟨← (d "params").tys, ← (d "ret").ty⟩

/-- Settings; what is absent keeps its default. -/
def settings (d : Datum) : ReadM Settings := do
  let s : Settings := {}
  let limit ← (d "limit").maybe natural
  let native ← (d "native").maybe boolean
  let max ← (d "max").maybe natural
  let fallback ← (d "fallback").maybe boolean
  let mode ← (d "mode").maybe (among Assurance.names)
  let s := match limit with
    | some limit => s.withFixedFieldLimit limit
    | none => s
  return { s with
    assurance := mode.getD s.assurance
    nativeEnabled := native.getD s.nativeEnabled
    maxNativeInstructions := max.getD s.maxNativeInstructions
    fallbackEnabled := fallback.getD s.fallbackEnabled }

end ExprCompiler.Datum
