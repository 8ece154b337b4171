import SmtLowering.Definition
import SmtLowering.Trace
import SmtLowering.Value

/-!
# Sessions and scopes

A scope holds one nesting level's nodes and artifacts. What scopes may share lies in the session:
each registry is kept in numbered branches, and a scope names the branch that it reads and writes.
Scopes that share a registry name one branch; a snapshot is a new branch with the same contents.
-/

namespace SmtLowering

section Branches

variable {α : Type}

/-- The contents of a registry's branches. -/
structure Branches (α : Type) where
  contents : List α
  deriving DecidableEq, Inhabited

namespace Branches

def empty : Branches α := ⟨[]⟩

def get [Inhabited α] (bs : Branches α) (i : Nat) : α := bs.contents.getD i default

def update (bs : Branches α) (i : Nat) (f : α → α) : Branches α := ⟨bs.contents.modify i f⟩

/-- A new branch and its number. -/
def add (bs : Branches α) (a : α) : Nat × Branches α :=
  (bs.contents.length, ⟨bs.contents ++ [a]⟩)

end Branches

end Branches

/-- The branch of each registry that a scope uses. -/
structure BranchIds where
  uninterpreted : Nat
  userFunctions : Nat
  definitions : Nat
  axioms : Nat
  tableIds : Nat
  arrayIds : Nat
  deriving DecidableEq, Inhabited

structure Session where
  /-- The number of the next scope. -/
  scopes : Nat
  uninterpreted : Branches (NameTable Signature)
  userFunctions : Branches (NameTable Signature)
  definitions : Branches (List Declaration)
  axioms : Branches (List String)
  tableIds : Branches Nat
  arrayIds : Branches Nat
  deriving DecidableEq, Inhabited

def Session.empty : Session :=
  ⟨0, .empty, .empty, .empty, .empty, .empty, .empty⟩

/-- One nesting level: its nodes, and what it recorded, in the order it was recorded. -/
structure Scope where
  number : Nat
  level : Nat
  config : Config
  branches : BranchIds
  nodeKinds : List Kind
  /-- The nodes of the expressions built so far, latest first. -/
  exprIds : List (Expr × NodeId)
  /-- The nodes of the constants used so far, latest first. -/
  constIds : List (Literal × NodeId)
  inputs : List Input
  constants : List (NodeId × Literal)
  assignments : List (NodeId × Expr)
  tables : List Table
  arrays : List ArrayDecl
  codeSegments : List CodeSegment
  observables : List Labelled
  constraints : List Labelled
  assertions : List Labelled
  outputs : List NodeId
  kinds : List Kind
  deriving DecidableEq, Inhabited

namespace Scope

def nodeCount (s : Scope) : Nat := s.nodeKinds.length

def kindOf? (s : Scope) (n : NodeId) : Option Kind := s.nodeKinds[n]?

/-- A new node of kind `k`. -/
def freshNode (s : Scope) (k : Kind) : NodeId × Scope :=
  (s.nodeCount, { s with nodeKinds := s.nodeKinds ++ [k], kinds := insertOrdered k s.kinds })

/-- The node of a constant, one for each kind and payload. -/
def constant (s : Scope) (c : Literal) : NodeId × Scope :=
  match s.constIds.lookup c with
  | some n => (n, s)
  | none =>
    let (n, s) := s.freshNode c.kind
    (n, { s with constIds := (c, n) :: s.constIds, constants := s.constants ++ [(n, c)] })

/-- The node of an expression, one for each operator, domain and operands. -/
def intern (s : Scope) (e : Expr) (k : Kind) : Value × Scope :=
  match s.exprIds.lookup e with
  | some n => (.symbolic n k s.number, s)
  | none =>
    let (n, s) := s.freshNode k
    (.symbolic n k s.number,
      { s with exprIds := (e, n) :: s.exprIds, assignments := s.assignments ++ [(n, e)] })

/-- A scope that has recorded nothing but the nodes of the truth values. -/
def blank (number level : Nat) (config : Config) (branches : BranchIds) : Scope :=
  let s : Scope :=
    ⟨number, level, config, branches, [], [], [], [], [], [], [], [], [], [], [], [], [], []⟩
  ((s.constant (.bool false)).2.constant (.bool true)).2

def finish (s : Scope) : Trace where
  level := s.level
  config := s.config
  kinds := s.kinds
  nodeKinds := s.nodeKinds
  inputs := s.inputs
  constants := s.constants
  assignments := s.assignments
  tables := s.tables
  arrays := s.arrays
  codeSegments := s.codeSegments
  observables := s.observables
  constraints := s.constraints
  assertions := s.assertions
  outputs := s.outputs

/-- What a scope passes on when another is derived from it. -/
inductive Field
  | config
  | startTime
  | uninterpreted
  | userFunctions
  | definitions
  | axioms
  | tableIds
  | arrayIds
  | nodes
  | inputs
  | constants
  | assignments
  | tables
  | arrays
  | codeSegments
  | observables
  | constraints
  | assertions
  | outputs
  | kinds
  deriving DecidableEq, Inhabited

def Field.all : List Field :=
  [.config, .startTime, .uninterpreted, .userFunctions, .definitions, .axioms, .tableIds,
    .arrayIds, .nodes, .inputs, .constants, .assignments, .tables, .arrays, .codeSegments,
    .observables, .constraints, .assertions, .outputs, .kinds]

/-- How a derived scope gets a field. -/
inductive Policy
  /-- The same registry; what is the scope's own is copied. -/
  | share
  /-- A copy of the contents. -/
  | snapshot
  /-- Empty. -/
  | fresh
  deriving DecidableEq, Inhabited

/-- A field that is no registry, given the parent's contents and those of a blank scope. -/
def Policy.pick {α : Type} (p : Policy) (parent blank : α) : α :=
  match p with
  | .fresh => blank
  | .share | .snapshot => parent

end Scope

/-- The branch that a derived scope uses for a registry. -/
def Branches.inherit {α : Type} [Inhabited α] (bs : Branches α) (parent : Nat) :
    Scope.Policy → Nat × Branches α
  | .share => (parent, bs)
  | .snapshot => bs.add (bs.get parent)
  | .fresh => bs.add default

namespace Session

/-- A scope at depth `level` whose fields come from `parent` as `policy` says. Nodes bring their
expressions along and constants their nodes. -/
def derive (s : Session) (parent : Scope) (level : Nat) (policy : Scope.Field → Scope.Policy) :
    Scope × Session :=
  let (uninterpreted, us) :=
    s.uninterpreted.inherit parent.branches.uninterpreted (policy .uninterpreted)
  let (userFunctions, fs) :=
    s.userFunctions.inherit parent.branches.userFunctions (policy .userFunctions)
  let (definitions, ds) :=
    s.definitions.inherit parent.branches.definitions (policy .definitions)
  let (axioms, as) := s.axioms.inherit parent.branches.axioms (policy .axioms)
  let (tableIds, ts) := s.tableIds.inherit parent.branches.tableIds (policy .tableIds)
  let (arrayIds, rs) := s.arrayIds.inherit parent.branches.arrayIds (policy .arrayIds)
  let child := Scope.blank s.scopes level {}
    ⟨uninterpreted, userFunctions, definitions, axioms, tableIds, arrayIds⟩
  ({ child with
      config := (policy .config).pick parent.config child.config
      nodeKinds := (policy .nodes).pick parent.nodeKinds child.nodeKinds
      exprIds := (policy .nodes).pick parent.exprIds child.exprIds
      inputs := (policy .inputs).pick parent.inputs child.inputs
      constants := (policy .constants).pick parent.constants child.constants
      constIds := (policy .constants).pick parent.constIds child.constIds
      assignments := (policy .assignments).pick parent.assignments child.assignments
      tables := (policy .tables).pick parent.tables child.tables
      arrays := (policy .arrays).pick parent.arrays child.arrays
      codeSegments := (policy .codeSegments).pick parent.codeSegments child.codeSegments
      observables := (policy .observables).pick parent.observables child.observables
      constraints := (policy .constraints).pick parent.constraints child.constraints
      assertions := (policy .assertions).pick parent.assertions child.assertions
      outputs := (policy .outputs).pick parent.outputs child.outputs
      kinds := (policy .kinds).pick parent.kinds child.kinds },
    ⟨s.scopes + 1, us, fs, ds, as, ts, rs⟩)

/-- A scope at the outermost level with registries of its own. -/
def openScope (s : Session) (config : Config) : Scope × Session :=
  let (uninterpreted, us) := s.uninterpreted.add .empty
  let (userFunctions, fs) := s.userFunctions.add .empty
  let (definitions, ds) := s.definitions.add []
  let (axioms, as) := s.axioms.add []
  let (tableIds, ts) := s.tableIds.add 0
  let (arrayIds, rs) := s.arrayIds.add 0
  (.blank s.scopes 0 config
      ⟨uninterpreted, userFunctions, definitions, axioms, tableIds, arrayIds⟩,
    ⟨s.scopes + 1, us, fs, ds, as, ts, rs⟩)

end Session

/-- A session with one of its scopes at hand. -/
structure Workspace where
  session : Session
  scope : Scope
  deriving DecidableEq, Inhabited

namespace Workspace

/-- A new session with its outermost scope. -/
def new (config : Config) : Workspace :=
  let (scope, session) := Session.empty.openScope config
  ⟨session, scope⟩

def uninterpreted (w : Workspace) : NameTable Signature :=
  w.session.uninterpreted.get w.scope.branches.uninterpreted

def userFunctions (w : Workspace) : NameTable Signature :=
  w.session.userFunctions.get w.scope.branches.userFunctions

def definitions (w : Workspace) : List Declaration :=
  w.session.definitions.get w.scope.branches.definitions

def axioms (w : Workspace) : List String :=
  w.session.axioms.get w.scope.branches.axioms

def mapUninterpreted (w : Workspace) (f : NameTable Signature → NameTable Signature) : Workspace :=
  { w with session.uninterpreted :=
      w.session.uninterpreted.update w.scope.branches.uninterpreted f }

def forgetUninterpreted (w : Workspace) (name : String) : Workspace :=
  w.mapUninterpreted (·.erase name)

/-- Registers a definition and makes its name applicable. -/
def registerDefinition (w : Workspace) (sig : Signature) (d : Declaration) : Workspace :=
  { w with
    session.userFunctions :=
      w.session.userFunctions.update w.scope.branches.userFunctions (·.insert d.name sig)
    session.definitions :=
      w.session.definitions.update w.scope.branches.definitions (· ++ [d]) }

def addAxiom (w : Workspace) (text : String) : Workspace :=
  { w with session.axioms := w.session.axioms.update w.scope.branches.axioms (· ++ [text]) }

/-- The next table id. -/
def takeTableId (w : Workspace) : Nat × Workspace :=
  (w.session.tableIds.get w.scope.branches.tableIds,
    { w with session.tableIds := w.session.tableIds.update w.scope.branches.tableIds (· + 1) })

/-- The next array id. -/
def takeArrayId (w : Workspace) : Nat × Workspace :=
  (w.session.arrayIds.get w.scope.branches.arrayIds,
    { w with session.arrayIds := w.session.arrayIds.update w.scope.branches.arrayIds (· + 1) })

/-- What the session declares before its queries: options, uninterpreted functions without a
definition, definitions and axioms. -/
def declarations (w : Workspace) : List String :=
  let defined := w.definitions.map (·.name)
  let declared := w.uninterpreted.entries.filter fun (name, _) => !defined.contains name
  w.scope.config.optionLines ++ declared.map (fun (name, sig) => sig.declare name) ++
    w.definitions.map (·.render) ++ w.axioms

end Workspace

end SmtLowering
