import SmtLowering.Lowering.Error

/-!
# Validation

A trace can be lowered if it recorded no artifacts, has no inputs but universal ones, and has one
output of the expected kind. `Check.all` lists the checks in the order they run; the first that
fails decides the error. A `ValidTrace` is what emission needs of a trace that passed.
-/

namespace SmtLowering

structure ValidTrace where
  level : Nat
  rounding : RoundingMode
  params : List (NodeId × Kind)
  /-- The constants that are not truth values. -/
  constants : List (NodeId × Literal)
  assignments : List (NodeId × Expr)
  output : NodeId
  outputKind : Kind
  freeNames : List String
  deriving DecidableEq, Inhabited

inductive Check
  | observables
  | codeSegments
  | tables
  | arrays
  | constraints
  | assertions
  | existentials
  | trackers
  | output
  deriving DecidableEq, Inhabited

namespace Check

/-- The checks in the order they run. -/
def all : List Check :=
  [.observables, .codeSegments, .tables, .arrays, .constraints, .assertions, .existentials,
    .trackers, .output]

def name : Check → String
  | .observables => "observables"
  | .codeSegments => "code segments"
  | .tables => "tables"
  | .arrays => "arrays"
  | .constraints => "constraints"
  | .assertions => "assertions"
  | .existentials => "existential inputs"
  | .trackers => "tracker inputs"
  | .output => "output"

/-- The inputs of a role, in the order they were declared. -/
def inputsOf (t : Trace) (role : InputRole) : List Input := t.inputs.filter (·.role = role)

/-- The trace has exactly one output, and it is a node of the expected kind. -/
def outputError? (t : Trace) (expected : Kind) : Option Impossible :=
  match t.outputs with
  | [out] =>
    match t.kindOf? out with
    | some k => if k = expected then none else some (.outputKind expected k)
    | none => some (.outputMissing out)
  | outs => some (.outputCount outs.length)

/-- Refuses a list of artifacts unless it is empty. -/
def refuse {α : Type} (context : String) (cause : List α → Unsupported) (found : List α) :
    Option LowerError :=
  if found.isEmpty then none else some (.unsupported context (cause found))

/-- The error of a check that fails. -/
def run (context : String) (t : Trace) (expected : Kind) : Check → Option LowerError
  | .observables => refuse context .observables t.observables
  | .codeSegments => refuse context .codeSegments t.codeSegments
  | .tables => refuse context .tables t.tables
  | .arrays => refuse context .arrays t.arrays
  | .constraints => refuse context .constraints t.constraints
  | .assertions => refuse context .assertions t.assertions
  | .existentials => refuse context .existentials (inputsOf t .existential)
  | .trackers => refuse context .trackers (inputsOf t .tracker)
  | .output => (outputError? t expected).map (.impossible context)

end Check

/-- The functions that the expressions apply, each at its first application. -/
def freeNames (exprs : List Expr) : List String :=
  exprs.foldl
    (fun names e =>
      match e.appliedName? with
      | some name => if names.contains name then names else names ++ [name]
      | none => names)
    []

/-- The parameter that an input becomes. -/
def Input.parameter (context : String) (i : Input) : Except LowerError (NodeId × Kind) :=
  match i.role with
  | .universal => .ok (i.node, i.kind)
  | role => .error (.impossible context (.survivor role i.name))

namespace Trace

/-- What emission needs of a trace with this output. -/
def valid (t : Trace) (expected : Kind) (output : NodeId) : ValidTrace where
  level := t.level
  rounding := t.config.rounding
  params := t.inputs.map fun i => (i.node, i.kind)
  constants := t.constants.filter fun (n, _) => !n.isTruthValue
  assignments := t.assignments
  output := output
  outputKind := expected
  freeNames := freeNames (t.assignments.map Prod.snd)

def validate (context : String) (t : Trace) (expected : Kind) : Except LowerError ValidTrace :=
  match Check.all.findSome? (Check.run context t expected) with
  | some e => .error e
  | none => do
    let params ← t.inputs.mapM (Input.parameter context)
    return { t.valid expected (t.outputs.headD NodeId.falsity) with params }

end Trace

end SmtLowering
