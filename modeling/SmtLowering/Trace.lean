import SmtLowering.Config
import SmtLowering.Expr
import SmtLowering.Literal

/-!
# Traces

A trace is everything that one scope recorded, in the order it was recorded: its nodes, which are
inputs, constants and assignments, and the artifacts of the computation.
-/

namespace SmtLowering

inductive InputRole
  /-- A free variable; a parameter once lowered. -/
  | universal
  | existential
  /-- Internal bookkeeping. -/
  | tracker
  deriving DecidableEq, Inhabited

structure Input where
  node : NodeId
  name : String
  kind : Kind
  role : InputRole
  deriving DecidableEq, Inhabited

/-- A list of values indexed by a symbolic one. -/
structure Table where
  id : Nat
  index : Kind
  elem : Kind
  entries : List NodeId
  deriving DecidableEq, Inhabited

structure ArrayDecl where
  id : Nat
  name : String
  key : Kind
  value : Kind
  deriving DecidableEq, Inhabited

/-- Foreign code attached to an uninterpreted function. -/
structure CodeSegment where
  function : String
  lines : List String
  deriving DecidableEq, Inhabited

/-- A node recorded under a label. -/
structure Labelled where
  label : String
  node : NodeId
  deriving DecidableEq, Inhabited

structure Trace where
  level : Nat
  config : Config
  /-- The kinds of the nodes, ascending. -/
  kinds : List Kind
  nodeKinds : List Kind
  inputs : List Input
  constants : List (NodeId × Literal)
  assignments : List (NodeId × Expr)
  tables : List Table
  arrays : List ArrayDecl
  codeSegments : List CodeSegment
  observables : List Labelled
  constraints : List Labelled
  assertions : List Labelled
  outputs : List NodeId
  deriving DecidableEq, Inhabited

def Trace.kindOf? (t : Trace) (n : NodeId) : Option Kind := t.nodeKinds[n]?

end SmtLowering
