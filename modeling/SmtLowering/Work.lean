import SmtLowering.Build.Artifact

/-!
# Steps that use the registries

Applications, lookups and arrays need the session beside the scope. `WorkT` adds an inner monad to
such steps, so that a caller's computation may keep a state of its own.
-/

namespace SmtLowering

abbrev WorkT (m : Type → Type) := ExceptT (Fault ValueError) (StateT Workspace m)

abbrev Work := WorkT Id

namespace Work

section Lift

variable {α : Type} {m : Type → Type} [Monad m]

/-- Runs a step that needs no caller's state. -/
def lift (x : Work α) : WorkT m α := fun w => pure (x w)

/-- Runs a step of the scope at hand. -/
def build (x : Build α) : WorkT m α := fun w =>
  let (r, s) := x.run.run w.scope
  pure (r, { w with scope := s })

end Lift

section Functions

/-- Records the signature of a name that is not known yet, and refuses another one for a name that
is. -/
def agree (name : String) (sig : Signature) : Work Unit := do
  let w ← get
  match (w.userFunctions.find? name).or (w.uninterpreted.find? name) with
  | some declared =>
    if declared = sig then pure ()
    else throw (Fault.error (.signatureMismatch name declared sig))
  | none => set (w.mapUninterpreted (·.insert name sig))

/-- The kind of the first argument, or of the result if there is none. -/
def applicationDomain (result : Kind) : List Value → Kind
  | [] => result
  | a :: _ => a.kind

/-- Applies a function by name. The first application of a name that is not known declares it, and
later ones have to agree with its signature. -/
def apply (name : String) (result : Kind) (args : List Value) : Work Value := do
  agree name ⟨args.map Value.kind, result⟩
  build do
    let nodes ← args.mapM Build.materialize
    Build.intern ⟨.apply name, applicationDomain result args, nodes⟩ result

end Functions

section Tables

/-- A table of the entries, and its application to a symbolic index. -/
def tableLookup (entries : List Value) (index fallback : Value) : Work Value := do
  let id ← modifyGet (·.takeTableId)
  build do
    let nodes ← entries.mapM Build.materialize
    modify fun s => { s with tables := s.tables ++ [⟨id, index.kind, fallback.kind, nodes⟩] }
    let ni ← Build.materialize index
    let nd ← Build.materialize fallback
    Build.intern ⟨.table id, index.kind, [ni, nd]⟩ fallback.kind

/-- The entry at `index`, or `fallback` out of range. -/
def lookup (entries : List Value) (index fallback : Value) : Work Value := do
  build (Build.require "lookup" index (index.kind.isBitVec || index.kind = .int))
  match entries.find? (·.kind ≠ fallback.kind) with
  | some bad => throw (Fault.error (.tableKind entries.length bad.kind fallback.kind))
  | none =>
    match index.asInt? with
    | some i => pure (if 0 ≤ i then entries.getD i.toNat fallback else fallback)
    | none => tableLookup entries index fallback

def newArray (name : String) (key value : Kind) : Work Value := do
  let id ← modifyGet (·.takeArrayId)
  build do
    modify fun s => { s with arrays := s.arrays ++ [⟨id, name, key, value⟩] }
    Build.intern ⟨.arrayRef id, .array key value, []⟩ (.array key value)

end Tables

end Work

end SmtLowering
