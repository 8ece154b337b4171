import SmtLowering.Error
import SmtLowering.Trace

/-!
# Failures of lowerings

A lowering fails because the computation is beyond what can be lowered, because its trace is not
what its producer promised, or because the computation itself failed while it was replayed.
-/

namespace SmtLowering

/-- A construct that cannot be lowered. -/
inductive Unsupported
  | nestedConstraint (level : Nat)
  | redefinition (name : String) (sig : Signature)
  /-- A body that applies its own name at another signature. -/
  | selfCall (used defined : Signature)
  | observables (found : List Labelled)
  | codeSegments (found : List CodeSegment)
  | tables (found : List Table)
  | arrays (found : List ArrayDecl)
  | constraints (found : List Labelled)
  | assertions (found : List Labelled)
  | existentials (found : List Input)
  | trackers (found : List Input)
  deriving DecidableEq, Inhabited

namespace Unsupported

def commaList (texts : List String) : String := ", ".intercalate texts

def tableText (t : Table) : String := s!"table{t.id} [{t.entries.length}] of {t.elem}"

def arrayText (a : ArrayDecl) : String := s!"{a.name} : array<{a.key}, {a.value}>"

def inputText (i : Input) : String := s!"{i.name} : {i.kind}"

def labels (found : List Labelled) : String := commaList (found.map (·.label))

/-- What the message says is not supported. -/
def what : Unsupported → String
  | .nestedConstraint level => s!"declaring a constraint inside a nested scope (level {level})"
  | .redefinition name sig => s!"redefining {name}, already defined as ({sig})"
  | .selfCall used defined => s!"a body calling itself as ({used}) while defined as ({defined})"
  | .observables found =>
    s!"observing values ({found.length} observable(s): " ++ labels found ++ ")"
  | .codeSegments found =>
    s!"uninterpreted code ({found.length} segment(s) for " ++
      commaList (found.map (·.function)) ++ ")"
  | .tables found =>
    s!"indexing lists with symbolic values ({found.length} table(s): " ++
      commaList (found.map tableText) ++ ")"
  | .arrays found =>
    s!"arrays ({found.length} array(s): " ++ commaList (found.map arrayText) ++ ")"
  | .constraints found => s!"constraints inside the body ({found.length} found)"
  | .assertions found =>
    s!"assertions inside the body ({found.length} found: " ++ labels found ++ ")"
  | .existentials found => "existential inputs (" ++ commaList (found.map inputText) ++ ")"
  | .trackers found => "tracker inputs (" ++ commaList (found.map inputText) ++ ")"

end Unsupported

/-- A trace without the one output that was promised, or with an input that no check refused. -/
inductive Impossible
  | outputCount (found : Nat)
  | outputKind (expected found : Kind)
  | outputMissing (node : NodeId)
  | survivor (role : InputRole) (name : String)
  deriving DecidableEq, Inhabited

def InputRole.word : InputRole → String
  | .universal => "Universal"
  | .existential => "Existential"
  | .tracker => "Tracker"

def Impossible.what : Impossible → String
  | .outputCount found => s!"expected exactly one output, found {found}"
  | .outputKind expected found => s!"expected a result of kind {expected}, got {found}"
  | .outputMissing node => s!"output {node.display} is not a node of this scope"
  | .survivor role name => s!"{role.word} input {name} survived validation"

/-- Why a lowering failed, with the text that says which one. -/
inductive LowerError
  | unsupported (context : String) (cause : Unsupported)
  | impossible (context : String) (cause : Impossible)
  | replay (context : String) (cause : ValueError)
  deriving DecidableEq, Inhabited

namespace LowerError

def message : LowerError → String
  | .unsupported context cause => s!"{context}: {cause.what} is not supported"
  | .impossible context cause => s!"{context}: impossible happened: {cause.what}"
  | .replay context _ => s!"{context}: the computation failed during replay"

/-- The diagnostic code. -/
def code : LowerError → String
  | .unsupported .. => "quill::lower::unsupported"
  | .impossible .. => "quill::lower::impossible"
  | .replay .. => "quill::lower::replay"

def help? : LowerError → Option String
  | .unsupported .. =>
    some "this construct cannot be lowered yet; please file a feature request with the failing computation"
  | .impossible .. =>
    some "please report this as a bug together with the computation being lowered"
  | .replay .. => none

end LowerError

end SmtLowering
