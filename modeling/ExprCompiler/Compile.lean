/-
The compiler. Analysis walks a unit's body once and finds what the unit captures; nested lambdas
are compiled where they are met, and their own captures become captures of the unit around them.
Then the body is emitted and the unit is linked.
-/
import ExprCompiler.Emit
import ExprCompiler.Event
import ExprCompiler.Settings

namespace ExprCompiler

/-- What compilations add to. -/
structure Session where
  world : World := {}
  /-- All linked units, by the number of their reference. -/
  units : Array CodeUnit := #[]
  events : Array Event := #[]

structure Compiler where
  settings : Settings
  operators : Overloads

/-- A compilation. What it added before it was refused stays added. -/
abbrev CompileM := ReaderT Compiler (ExceptT Refusal (StateM Session))

namespace CompileM

variable {α : Type}

def decline (u : Unsupported) : CompileM α :=
  throw (.declined (.unsupported u))

def check : Except Defect α → CompileM α
  | .ok a => return a
  | .error d => throw (.defect d)

def report (e : Event) : CompileM Unit :=
  modify fun s => { s with events := s.events.push e }

def enter (unit : String) (stage : Stage) : CompileM Unit :=
  report (.stage unit stage)

/-- Reports the reason if a computation declines. -/
def reporting (unit : String) (staged : Bool) (x : CompileM α) : CompileM α :=
  tryCatch x fun refusal => do
    if let .declined reason := refusal then
      if staged then enter unit .failed
      report (.declined unit reason)
    throw refusal

/-- Adds a closure to the world. -/
def newClosure (c : Closure) : CompileM ClosureRef :=
  modifyGet fun s =>
    let (ref, world) := s.world.newClosure c
    (ref, { s with world })

/-- Adds a unit. -/
def newUnit (u : CodeUnit) : CompileM UnitRef :=
  modifyGet fun s => (⟨s.units.size, u.name⟩, { s with units := s.units.push u })

/-! ## Linking -/

/-- The layout of the closure for the captures, if there are any. -/
def layoutOf (name : String) (capture : Capture) : CompileM (Option Layout) := do
  if capture.isEmpty then return none
  else
    enter name .materializing
    return some (capture.layout (← read).settings.fixedFieldLimit)

/-- Emits a unit with the given captures. -/
def emitted (name : String) (body : Tree) (params : List Param) (ret : Ty) (capture : Capture)
    (layout : Option Layout) : CompileM CodeUnit := do
  enter name .emitting
  let operators := (← read).operators
  let u ← reporting name true
    (MonadExcept.ofExcept (Emit.unit operators name body params ret capture layout))
  enter name .emitted
  return u

/-- Checks the stack discipline of an emitted unit if the settings ask for it. -/
def verify (name : String) (u : CodeUnit) (isRoot : Bool) : CompileM Unit := do
  let settings := (← read).settings
  if settings.verifiesAllUnits || (isRoot && settings.verifiesRootUnits) then
    if let .error problem := u.depths then
      throw (.defect (.malformedUnit name (problem.message (← get).world.heap)))

/-- The unit with native code, if it has any. -/
def withNative (name : String) (u : CodeUnit) : CompileM CodeUnit := do
  match ← check (u.lower (← read).settings.maxNativeInstructions) with
  | .native code =>
    report (.nativeInstalled name u.instrs.size)
    return { u with native := some code }
  | .ineligible => return u
  | .skipped reason =>
    report (.nativeSkipped name reason)
    return u
  | .failed problem =>
    report (.nativeFailed name problem)
    return u

/-- The unit in the form that it is linked in. Units with captures have no native code. -/
def lowered (name : String) (u : CodeUnit) (layout : Option Layout) : CompileM CodeUnit := do
  if (← read).settings.nativeEnabled && layout.isNone then withNative name u else return u

/-- Emits and links a unit with the given captures. -/
def link (name : String) (body : Tree) (params : List Param) (ret : Ty) (capture : Capture)
    (isRoot : Bool) : CompileM (UnitRef × Option Layout) := do
  let layout ← layoutOf name capture
  let u ← emitted name body params ret capture layout
  verify name u isRoot
  let u ← lowered name u layout
  report (.compiled name params.length (layout.map Layout.strategy) capture.size u.instrs.size)
  enter name .linked
  return (← newUnit u, layout)

end CompileM

/-! ## Analysis -/

/-- The variables that a unit declares around a node. -/
structure Scope where
  params : List Param
  /-- The variables of blocks and catch clauses, innermost first. -/
  scopes : List (List Param) := []

def Scope.declares (s : Scope) (p : Param) : Bool :=
  s.params.contains p || s.scopes.any fun vars => vars.contains p

/-- The analysis of a unit's body, which gathers what the unit captures. -/
abbrev AnalyzeM := ReaderT Scope (StateT Capture CompileM)

namespace Analyze

open CompileM

def addConstant (r : CapturedConstant) : AnalyzeM Unit :=
  modify fun c => (c.addConstant r).2

/-- Adds a parameter unless the unit declares it. -/
def addParam (p : Param) : AnalyzeM Unit := do
  unless (← read).declares p do
    modify fun c => (c.addParam p).2

def addNested (n : Nested) : AnalyzeM Unit :=
  modify fun c => (c.addNested n).2

def within (vars : List Param) (x : AnalyzeM Unit) : AnalyzeM Unit :=
  withReader (fun s => { s with scopes := vars :: s.scopes }) x

/-- The captures that an analysis finds in the body of a unit. -/
def capturesOf (x : AnalyzeM Unit) (params : List Param) : CompileM Capture := do
  let (_, capture) ← x ⟨params, []⟩ {}
  return capture

/-- The same, with the events of a unit that is compiled. -/
def run (name : String) (x : AnalyzeM Unit) (params : List Param) : CompileM Capture := do
  enter name .analyzing
  let capture ← reporting name true (capturesOf x params)
  enter name .analyzed
  return capture

/-- A child of a node with its analysis. -/
abbrev Analyzed := Tree.Child (AnalyzeM Unit)

/-- Compiles a lambda inside another unit. Its captures are left to that unit. -/
def compileNested (id : NodeId) (ty : Ty) (params : List Param) (body : Analyzed)
    (name : Option String) : CompileM Nested := do
  match ty.signature? with
  | none => decline (.lambdaTyped ty)
  | some sig =>
    let name := name.getD "lambda"
    if body.ty.isVoid && !sig.ret.isVoid then decline (.returnsVoid name sig)
    let capture ← run name body.meaning params
    let (unit, layout) ← link name body.node params sig.ret capture false
    let artifact := match layout with
      | none => .bare unit
      | some l => .curryable unit l
    return ⟨id, artifact, if capture.isEmpty then none else some capture, sig⟩

/-- Compiles a nested lambda unless that is done already, and takes over what it captures. -/
def lambda (id : NodeId) (ty : Ty) (params : List Param) (body : Analyzed)
    (name : Option String) : AnalyzeM Unit := do
  if ((← get).nestedIndex? id).isSome then return
  let nested ← compileNested id ty params body name
  if let some child := nested.capture then
    child.params.forM addParam
    child.constants.forM addConstant
    child.nested.forM addNested
  addNested nested

/-- Analyses a node. Catch filters have no compiled form. -/
def node (id : NodeId) (ty : Ty) : Shape Analyzed → AnalyzeM Unit
  | .constant v => unless v.isImmediate do addConstant ⟨id, v, ty⟩
  | .parameter p => addParam p
  | .lambda params body name => lambda id ty params body name
  | .block vars body => within vars (body.forM Tree.Child.meaning)
  | .guarded body clauses final => do
    body.meaning
    clauses.forM fun c => do
      if c.filter.isSome then decline .catchFilter
      within c.var.toList c.body.meaning
    final.forM Tree.Child.meaning
  | shape => shape.children.forM Tree.Child.meaning

end Analyze

/-- The analysis of a tree. -/
def Tree.analysis : Tree → AnalyzeM Unit :=
  Tree.fold Analyze.node

/-! ## Compilation -/

/-- The type of function that is asked for, if any. -/
abbrev Requested := Option Signature

/-- The result type of a unit of the requested type. The tree's result must be of that type
without any conversion at run time. -/
def Requested.resultOf (requested : Requested) (body : Ty) (params : List Param) :
    Except Unsupported Ty :=
  match requested with
  | none => .ok body
  | some sig =>
    if sig.params.length ≠ params.length then .error (.requestedArity sig params.length)
    else
      match (sig.params.zip params).find? fun (want, p) => want ≠ p.ty with
      | some (want, p) => .error (.requestedParam p want)
      | none =>
        let fits := sig.ret.isVoid || planConversion? body sig.ret false == some []
        if !fits || (body.isVoid && !sig.ret.isVoid) then .error (.requestedResult body sig.ret)
        else .ok sig.ret

/-- A compiled lambda or, where the compiler declined, an instance that is evaluated. -/
inductive Function
  | compiled (a : Artifact)
  | interpreted (l : LambdaRef)

namespace Function

def artifact? : Function → Option Artifact
  | .compiled a => some a
  | .interpreted _ => none

def callable? : Function → Option Callable
  | .compiled a => a.callable?
  | .interpreted l => some (.interpreted l)

end Function

namespace CompileM

/-- Links a root unit, with the closure of what it captures. -/
def linkRoot (name : String) (body : Tree) (params : List Param) (ret : Ty) (capture : Capture) :
    CompileM Artifact := do
  let (unit, layout) ← link name body params ret capture true
  match layout with
  | none => return .bare unit
  | some l =>
    let closure ← check (capture.materialize l)
    return .bound unit (← newClosure closure)

/-- Compiles a tree as a root unit. Nothing around it declares parameters for it to capture. -/
def root (name : String) (body : Tree) (params : List Param) (requested : Requested) :
    CompileM Artifact := do
  let ret ← reporting name false
    (match requested.resultOf body.ty params with
      | .ok ret => return ret
      | .error u => decline u)
  let capture ← Analyze.run name body.analysis params
  if let p :: _ := capture.params then
    reporting name true (throw (.declined (.invalidCapture p.name)))
  linkRoot name body params ret capture

/-- Compiles a tree over parameters. -/
def compile (body : Tree) (params : List Param) (requested : Requested) : CompileM Artifact :=
  root "root" body params requested

/-- Compiles a lambda node as a root unit of the lambda's type. -/
def compileLambda (t : Tree) : CompileM Artifact :=
  match t.shape with
  | .lambda params body name => root (name.getD "lambda") body params t.ty.signature?
  | shape => decline (.notLambda shape.kind)

/-- Compiles a lambda node. If that is declined and the settings allow it, the lambda is
evaluated. -/
def compileOrFallback (t : Tree) : CompileM Function :=
  tryCatch (.compiled <$> compileLambda t) fun refusal => do
    match refusal with
    | .declined reason =>
      if (← read).settings.fallbackEnabled then
        report (.fallback reason)
        match t.shape with
        | .lambda params body name =>
          let l ← modifyGet fun s =>
            let (l, world) := s.world.newLambda ⟨name, params, body, #[]⟩
            (l, { s with world })
          return .interpreted l
        | _ => throw refusal
      else throw refusal
    | .defect d => throw (.defect d)

/-- The captures of a tree over parameters. -/
def analyze (body : Tree) (params : List Param) : CompileM Capture :=
  Analyze.capturesOf body.analysis params

end CompileM

/-! ## Listings -/

namespace Session

/-- A linked unit. -/
def unit? (s : Session) (r : UnitRef) : Option CodeUnit :=
  s.units[r.id]?

/-- How the closure of an artifact is stored. -/
def strategy? (s : Session) : Artifact → Option Strategy
  | .bare _ => none
  | .bound _ c => some (s.world.closure c).strategy
  | .curryable _ layout => some layout.strategy

def isNative (s : Session) (a : Artifact) : Bool :=
  ((s.unit? a.unit).bind CodeUnit.native).isSome

/-- The listing form of an artifact. -/
def describe (s : Session) (a : Artifact) : String :=
  let kind := match a with
    | .bare _ => "Bare"
    | .bound _ _ => "Bound"
    | .curryable _ _ => "Curryable"
  let strategy := match s.strategy? a with
    | some st => "Some(" ++ st.name ++ ")"
    | none => "None"
  Text.record kind
    [("unit", Text.quote a.unit.name), ("closure", strategy), ("native", toString (s.isNative a))]

/-- The listing form of a function. -/
def describeFunction (s : Session) : Function → String
  | .compiled a => "Compiled(" ++ s.describe a ++ ")"
  | .interpreted _ => "Interpreted"

end Session

end ExprCompiler
