import SmtLowering.Lowering.Emission
import SmtLowering.Lowering.Fork
import SmtLowering.Work

/-!
# Lowerings

A lowering forks a scope, replays the computation in it, validates its trace and emits the result.
The parent's scope is only read: a lowering acts on the session alone, and can itself be a step of
another computation (`Lowering.nested`). A failed definition takes back the signature that its body
left for the name; a violation takes back nothing.
-/

namespace SmtLowering

abbrev LowerT (m : Type → Type) := ExceptT (Fault LowerError) (StateT Session m)

namespace Lowering

variable {m : Type → Type} [Monad m]

section Steps

/-- Runs a computation to its end in a scope of its own; its result becomes an output. -/
def replay (child : Scope) (context : String) (computation : WorkT m Value) : LowerT m Trace :=
  fun s => do
    let step : WorkT m NodeId := do
      let out ← computation
      Work.build (Build.addOutput out)
    let (r, w) ← step.run.run ⟨s, child⟩
    match r with
    | .ok _ => pure (.ok w.scope.finish, w.session)
    | .error (.error e) => pure (.error (.error (.replay context e)), w.session)
    | .error (.violation v) => pure (.error (.violation v), w.session)

def ofExcept {α ε : Type} (fault : ε → Fault LowerError) (x : Except ε α) : LowerT m α :=
  match x with
  | .ok a => pure a
  | .error e => throw (fault e)

def fork (parent : Scope) (purpose : Purpose) : LowerT m Scope := do
  let s ← get
  let (child, s) ← ofExcept .error (s.fork parent purpose)
  set s
  pure child

/-- The valid trace of a computation in a fork. -/
def trace (parent : Scope) (purpose : Purpose) (context : String) (expected : Kind)
    (computation : WorkT m Value) : LowerT m ValidTrace := do
  let child ← fork parent purpose
  let t ← replay child context computation
  ofExcept .error (t.validate context expected)

end Steps

section Results

/-- Lowers a computation to an anonymous function of its inputs. -/
def lambda (parent : Scope) (expected : Kind) (computation : WorkT m Value) : LowerT m String := do
  let t ← trace parent .lambda Purpose.lambda.describe expected computation
  ofExcept .violation t.lambdaText

/-- Refuses a body that applied the name being defined at another signature. -/
def checkSelfCalls (parent : Scope) (name : String) (context : String) (sig : Signature) :
    LowerT m Unit := do
  let w : Workspace := ⟨← get, parent⟩
  match w.uninterpreted.find? name with
  | some used =>
    if used = sig then pure () else throw (.error (.unsupported context (.selfCall used sig)))
  | none => pure ()

/-- Lowers a computation to a definition and registers it. The body may apply the name itself, at
the signature that it is defined with. -/
def define (parent : Scope) (name : String) (expected : Kind) (context : String)
    (computation : WorkT m Value) : LowerT m Declaration := do
  let t ← trace parent .named context expected computation
  let sig : Signature := ⟨t.params.map Prod.snd, expected⟩
  checkSelfCalls parent name context sig
  let d ← ofExcept .violation (t.declaration name)
  modify fun s => (Workspace.registerDefinition ⟨s, parent⟩ sig d).session
  pure d

/-- Drops the signature of a name after an error, but not after a violation. -/
def forgetAfter (parent : Scope) (name : String) : Fault LowerError → LowerT m Unit
  | .error _ => modify fun s => (Workspace.forgetUninterpreted ⟨s, parent⟩ name).session
  | .violation _ => pure ()

/-- Defines a name, once in a session. A signature that was there before is kept on failure. -/
def function (parent : Scope) (name : String) (expected : Kind) (computation : WorkT m Value) :
    LowerT m Declaration := do
  let context := s!"{Purpose.named.describe} {name}"
  let w : Workspace := ⟨← get, parent⟩
  match w.userFunctions.find? name with
  | some sig => throw (.error (.unsupported context (.redefinition name sig)))
  | none =>
    let definition := define parent name expected context computation
    if (w.uninterpreted.find? name).isSome then definition
    else
      tryCatch definition fun fault => do
        forgetAfter parent name fault
        throw fault

/-- Lowers a truth value to a universally quantified assertion, which becomes an axiom. -/
def constraint (parent : Scope) (label : String) (computation : WorkT m Value) :
    LowerT m String := do
  let context := s!"{Purpose.constraint.describe} {label}"
  let t ← trace parent .constraint context .bool computation
  let text ← ofExcept .violation (t.constraintText label)
  modify fun s => (Workspace.addAxiom ⟨s, parent⟩ text).session
  pure text

end Results

section Nesting

/-- A lowering of the scope at hand as a step of a computation, which may go on after an error. A
violation ends the computation as well. -/
def nested {α : Type} (x : Scope → LowerT m α) : WorkT m (Except LowerError α) := fun w => do
  let (r, s) ← (x w.scope).run.run w.session
  let w := { w with session := s }
  match r with
  | .ok a => pure (.ok (.ok a), w)
  | .error (.error e) => pure (.ok (.error e), w)
  | .error (.violation v) => pure (.error (.violation v), w)

end Nesting

end Lowering

end SmtLowering
