import SmtLowering.Build.Basic

/-!
# What a computation records

Labelled nodes, foreign code and outputs. A constraint or an assertion that is constantly true is
not recorded.
-/

namespace SmtLowering.Build

def labelled (label : String) (v : Value) : Build Labelled := do
  let n ← materialize v
  pure ⟨label, n⟩

/-- Records a value for display in counter-models. -/
def observe (label : String) (v : Value) : Build Unit := do
  let l ← labelled label v
  modify fun s => { s with observables := s.observables ++ [l] }

/-- Adds a hard constraint. -/
def constrain (label : String) (v : Value) : Build Unit := do
  require "constrain" v v.kind.isBool
  if v.asBool? = some true then pure ()
  else
    let l ← labelled label v
    modify fun s => { s with constraints := s.constraints ++ [l] }

/-- Records a proof obligation. -/
def assert (label : String) (v : Value) : Build Unit := do
  require "sassert" v v.kind.isBool
  if v.asBool? = some true then pure ()
  else
    let l ← labelled label v
    modify fun s => { s with assertions := s.assertions ++ [l] }

/-- Marks a value as a result of the scope. -/
def addOutput (v : Value) : Build NodeId := do
  let n ← materialize v
  modify fun s => { s with outputs := s.outputs ++ [n] }
  pure n

def addCodeSegment (function : String) (lines : List String) : Build Unit :=
  modify fun s => { s with codeSegments := s.codeSegments ++ [⟨function, lines⟩] }

end SmtLowering.Build
