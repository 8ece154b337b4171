import SmtLowering.Ordered

/-!
# Kinds

A kind is the sort of a symbolic value. `Kind.display` is the short form that messages use,
`Kind.smtSort` the SMT-LIB spelling. Kinds are ordered by constructor, then field by field.
-/

namespace SmtLowering

inductive Kind
  | bool
  /-- A two's-complement word; signedness decides ordering, division and how constants read. -/
  | bitVec (signed : Bool) (width : Nat)
  | int
  | real
  | float (exp sig : Nat)
  | array (key value : Kind)
  | uninterpreted (name : String)
  deriving DecidableEq, Ord, Inhabited

namespace Kind

def unsigned (width : Nat) : Kind := .bitVec false width

def signed (width : Nat) : Kind := .bitVec true width

def float32 : Kind := .float 8 24

def float64 : Kind := .float 11 53

def isBool : Kind → Bool
  | .bool => true
  | _ => false

def isBitVec : Kind → Bool
  | .bitVec _ _ => true
  | _ => false

def isSigned : Kind → Bool
  | .bitVec true _ => true
  | _ => false

def isFloat : Kind → Bool
  | .float _ _ => true
  | _ => false

def width? : Kind → Option Nat
  | .bitVec _ w => some w
  | _ => none

/-- The word of width `w` with this kind's signedness; a kind that is no word counts as
unsigned. -/
def withWidth (k : Kind) (w : Nat) : Kind := .bitVec k.isSigned w

/-- Kinds with `+ - * /` and negation. -/
def isNumeric : Kind → Bool
  | .bitVec _ _ | .int | .real => true
  | _ => false

def smtSort : Kind → String
  | .bool => "Bool"
  | .bitVec _ w => s!"(_ BitVec {w})"
  | .int => "Int"
  | .real => "Real"
  | .float e s => s!"(_ FloatingPoint {e} {s})"
  | .array k v => s!"(Array {k.smtSort} {v.smtSort})"
  | .uninterpreted name => name

def display : Kind → String
  | .bool => "bool"
  | .bitVec true w => s!"i{w}"
  | .bitVec false w => s!"u{w}"
  | .int => "int"
  | .real => "real"
  | .float e s => s!"float<{e},{s}>"
  | .array k v => s!"array<{k.display}, {v.display}>"
  | .uninterpreted name => name

instance : ToString Kind := ⟨display⟩

end Kind

/-- Argument and result kinds of an uninterpreted or named function. -/
structure Signature where
  args : List Kind
  result : Kind
  deriving DecidableEq, Inhabited

namespace Signature

def display (s : Signature) : String :=
  ", ".intercalate (s.args.map Kind.display) ++ s!" -> {s.result}"

instance : ToString Signature := ⟨display⟩

/-- The command that declares `name` with this signature. -/
def declare (s : Signature) (name : String) : String :=
  s!"(declare-fun {name} (" ++ " ".intercalate (s.args.map Kind.smtSort) ++
    s!") {s.result.smtSort})"

end Signature

end SmtLowering
