import SmtLowering.Literal.Smt
import SmtLowering.Lowering.ValidTrace
import SmtLowering.Definition

/-!
# Emission

A valid trace is spelled as a definition: a binding for each constant, then for each assignment, in
the order they were recorded. The definition is wrapped as a lambda, an asserted constraint or a
named declaration.
-/

namespace SmtLowering

section Body

/-- The definition that a valid trace spells. -/
def Definition.ofTrace (t : ValidTrace) : Except Violation Definition := do
  let name := NodeId.smtName t.level
  let constants ← t.constants.mapM fun (n, c) => do
    let text ← c.smt t.rounding
    pure (name n, text)
  pure {
    freeNames := t.freeNames
    params := t.params.map fun (n, k) => (name n, k)
    bindings := constants ++ t.assignments.map fun (n, e) => (name n, e.render name)
    output := name t.output }

end Body

namespace Definition

section Wrap

/-- A body without parameters needs no `lambda`. -/
def lambdaText (d : Definition) : String :=
  match d.paramClause? with
  | some params => s!"(lambda {params}\n" ++ d.body 2 ++ ")"
  | none => d.body 0

/-- A label on one line: each line break is a blank, a carriage return with its line feed being
one. -/
def singleLine : List Char → List Char
  | [] => []
  | '\r' :: '\n' :: cs => ' ' :: singleLine cs
  | c :: cs => (if c = '\n' ∨ c = '\r' then ' ' else c) :: singleLine cs

/-- Comments with the label and the free names, then the assertion. -/
def constraintText (d : Definition) (label : String) : String :=
  let comment := "; -- constraint: " ++ String.ofList (singleLine label.toList) ++ "\n"
  let free :=
    if d.freeNames.isEmpty then ""
    else "; -- uninterpreted: " ++ ", ".intercalate d.freeNames ++ "\n"
  let assertion :=
    match d.paramClause? with
    | some params => s!"(assert (forall {params}\n" ++ d.body 2 ++ "))"
    | none => "(assert\n" ++ d.body 2 ++ ")"
  comment ++ free ++ assertion

end Wrap

end Definition

namespace ValidTrace

section Wrap

def lambdaText (t : ValidTrace) : Except Violation String := do
  let d ← Definition.ofTrace t
  pure d.lambdaText

def constraintText (t : ValidTrace) (label : String) : Except Violation String := do
  let d ← Definition.ofTrace t
  pure (d.constraintText label)

def declaration (t : ValidTrace) (name : String) : Except Violation Declaration := do
  let d ← Definition.ofTrace t
  pure (.ofDefinition name t.outputKind d)

end Wrap

end ValidTrace

end SmtLowering
