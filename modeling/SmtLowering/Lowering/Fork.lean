import SmtLowering.Lowering.Error
import SmtLowering.Session

/-!
# Forks

A lowering runs its computation in a fork, a scope one level below its parent. `forkManifest` says
what the fork takes over: signatures, axioms and counters are shared; user functions and
definitions are shared too, except with a named function, which sees a snapshot of them; nothing
else but the configuration is passed on.
-/

namespace SmtLowering

/-- What a fork is lowered into. -/
inductive Purpose
  | lambda
  | named
  | constraint
  deriving DecidableEq, Inhabited

namespace Purpose

def describe : Purpose → String
  | .lambda => "lambda"
  | .named => "named function"
  | .constraint => "constraint"

def all : List Purpose := [.lambda, .named, .constraint]

end Purpose

open Scope (Field Policy)

/-- A field with its policy for lambdas and constraints, and that for named functions. -/
structure ManifestRow where
  field : Field
  anonymous : Policy
  named : Policy
  deriving DecidableEq, Inhabited

def forkManifest : List ManifestRow :=
  [⟨.config, .snapshot, .snapshot⟩,
    ⟨.startTime, .snapshot, .snapshot⟩,
    ⟨.uninterpreted, .share, .share⟩,
    ⟨.userFunctions, .share, .snapshot⟩,
    ⟨.definitions, .share, .snapshot⟩,
    ⟨.axioms, .share, .share⟩,
    ⟨.tableIds, .share, .share⟩,
    ⟨.arrayIds, .share, .share⟩,
    ⟨.nodes, .fresh, .fresh⟩,
    ⟨.inputs, .fresh, .fresh⟩,
    ⟨.constants, .fresh, .fresh⟩,
    ⟨.assignments, .fresh, .fresh⟩,
    ⟨.tables, .fresh, .fresh⟩,
    ⟨.arrays, .fresh, .fresh⟩,
    ⟨.codeSegments, .fresh, .fresh⟩,
    ⟨.observables, .fresh, .fresh⟩,
    ⟨.constraints, .fresh, .fresh⟩,
    ⟨.assertions, .fresh, .fresh⟩,
    ⟨.outputs, .fresh, .fresh⟩,
    ⟨.kinds, .fresh, .fresh⟩]

/-- The manifest's policy for a field; what it does not list is not passed on. -/
def forkPolicy (purpose : Purpose) (field : Field) : Policy :=
  match forkManifest.find? (·.field = field) with
  | none => .fresh
  | some row =>
    match purpose with
    | .named => row.named
    | .lambda | .constraint => row.anonymous

/-- The scope that a lowering runs in. A constraint is declared at the outermost level only. -/
def Session.fork (s : Session) (parent : Scope) (purpose : Purpose) :
    Except LowerError (Scope × Session) :=
  if purpose = .constraint ∧ parent.level ≠ 0 then
    .error (.unsupported purpose.describe (.nestedConstraint parent.level))
  else .ok (s.derive parent (parent.level + 1) (forkPolicy purpose))

end SmtLowering
