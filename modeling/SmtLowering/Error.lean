import SmtLowering.Literal

/-!
# Failures of building values

`ValueError` is what a caller may recover from. A `Violation` is a broken promise of the caller:
it passes through every enclosing operation without any of their clean-up.
-/

namespace SmtLowering

/-- Why a symbolic value could not be built. -/
inductive ValueError
  | kindMismatch (op : String) (left right : Kind)
  | invalidOperand (op : String) (kind : Kind)
  | signatureMismatch (name : String) (declared got : Signature)
  | tableKind (len : Nat) (elem default : Kind)
  | foreignValue (node scope expected : Nat)
  | user (message : String)
  deriving DecidableEq, Inhabited

namespace ValueError

def message : ValueError → String
  | .kindMismatch op left right => s!"kind mismatch in `{op}`: {left} vs {right}"
  | .invalidOperand op kind => s!"`{op}` is not defined on {kind}"
  | .signatureMismatch name declared got =>
    s!"function `{name}` applied as ({got}) but declared as ({declared})"
  | .tableKind len elem default =>
    s!"lookup table with {len} entries of kind {elem} has a default of kind {default}"
  | .foreignValue node scope expected =>
    s!"value s{node} belongs to scope #{scope}, but was used in scope #{expected}"
  | .user message => message

/-- The diagnostic code. -/
def code : ValueError → String
  | .kindMismatch .. => "quill::ir::kind_mismatch"
  | .invalidOperand .. => "quill::ir::invalid_operand"
  | .signatureMismatch .. => "quill::ir::signature"
  | .tableKind .. => "quill::ir::table"
  | .foreignValue .. => "quill::ir::foreign_value"
  | .user _ => "quill::ir::user"

def help? : ValueError → Option String
  | .signatureMismatch .. =>
    some "every application of an uninterpreted or named function must agree with its first declaration"
  | .foreignValue .. =>
    some "a lowered computation must take its free variables as inputs, not capture them from an enclosing scope"
  | _ => none

end ValueError

/-- A use that the library rules out and does not recover from. -/
inductive Violation
  /-- An extension to fewer bits than the operand has. -/
  | narrowing (op : String) (target source : Nat) (kind : Kind)
  | wordExpected (kind : Kind)
  | maxWordExpected (kind : Kind)
  | floatUnder (kind : Kind) (x : Binary64)
  deriving DecidableEq, Inhabited

def Violation.message : Violation → String
  | .narrowing op target source kind =>
    s!"{op}: target width {target} is smaller than source width {source} ({kind})"
  | .wordExpected kind => s!"Cv::bv: expected a bit-vector kind, got {kind}"
  | .maxWordExpected kind => s!"Cv::bv_max: expected a bit-vector kind, got {kind}"
  | .floatUnder kind x => s!"float payload {x} under non-float kind {kind}"

/-- How an operation ends early. -/
inductive Fault (ε : Type)
  | error (e : ε)
  | violation (v : Violation)
  deriving DecidableEq

end SmtLowering
