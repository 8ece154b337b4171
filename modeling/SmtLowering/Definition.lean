import SmtLowering.Kind

/-!
# Definitions

A definition is a lowered body as text: parameters, nested bindings and an output. It can be
placed at any indentation (`Definition.body`). A body of one binding that is the output needs no
`let`. `Declaration` gives a definition a name; it is rendered only when a session emits its
declarations.
-/

namespace SmtLowering

structure Definition where
  /-- Functions that the body applies and does not define. -/
  freeNames : List String
  params : List (String × Kind)
  bindings : List (String × String)
  output : String
  deriving DecidableEq, Inhabited

namespace Definition

def paramClause (d : Definition) : String :=
  "(" ++ " ".intercalate (d.params.map fun (name, kind) => s!"({name} {kind.smtSort})") ++ ")"

/-- The parameter clause, if there are parameters. -/
def paramClause? (d : Definition) : Option String :=
  if d.params.isEmpty then none else some d.paramClause

/-- The term of the one binding, if that is the output. -/
def simpleTerm? (d : Definition) : Option String :=
  match d.bindings with
  | [(name, term)] => if name = d.output then some term else none
  | _ => none

/-- The body is one expression. -/
def isSimple (d : Definition) : Bool := d.simpleTerm?.isSome

/-- Nested bindings around the output, one a line, each line after `pad`. -/
def nestedBody (d : Definition) (pad : String) : String :=
  "\n".intercalate (d.bindings.map (fun (name, term) => s!"{pad}(let (({name} {term}))") ++
    [pad ++ d.output ++ "".pushn ')' d.bindings.length])

/-- The body, every line of it `indent` blanks in. -/
def body (d : Definition) (indent : Nat) : String :=
  let pad := "".pushn ' ' indent
  match d.simpleTerm? with
  | some term => pad ++ term
  | none => d.nestedBody pad

end Definition

/-- A named function. -/
structure Declaration where
  name : String
  result : Kind
  definition : Definition
  recursive : Bool
  deriving DecidableEq, Inhabited

namespace Declaration

/-- The declaration of `name`. It is recursive iff the definition applies `name`, which is then no
free name of it. -/
def ofDefinition (name : String) (result : Kind) (d : Definition) : Declaration where
  name := name
  result := result
  definition := { d with freeNames := d.freeNames.filter (· ≠ name) }
  recursive := d.freeNames.contains name

def render (f : Declaration) : String :=
  let head := if f.recursive then "define-fun-rec" else "define-fun"
  s!"({head} {f.name} {f.definition.paramClause} {f.result.smtSort}\n" ++ f.definition.body 2 ++ ")"

end Declaration

end SmtLowering
