import SmtLowering.Kind

/-!
# Expressions

A node of a scope is named by its number; the first two are the truth values. An expression
applies an operator to nodes. Its domain, the kind of the first value operand, decides between the
spellings of an operator, as `Expr.head` lists them.
-/

namespace SmtLowering

abbrev NodeId := Nat

namespace NodeId

def falsity : NodeId := 0

def truth : NodeId := 1

/-- The node stands for a truth value in every scope. -/
def isTruthValue (n : NodeId) : Bool := n == NodeId.falsity || n == NodeId.truth

/-- The name of a node at nesting depth `level`. Below the outermost scope the depth is part of
the name, so no binding captures one of another depth. -/
def smtName (level : Nat) (n : NodeId) : String :=
  if n = NodeId.falsity then "false"
  else if n = NodeId.truth then "true"
  else if level = 0 then s!"s{n}"
  else s!"l{level}_s{n}"

/-- The name of a node in messages. -/
def display (n : NodeId) : String := s!"s{n}"

end NodeId

inductive Op
  | not | and | or | xor | implies
  | ite
  | eq | neq | lt | le | gt | ge
  | add | sub | mul | div | neg
  /-- Adds this many zeros in front. -/
  | zeroExtend (count : Nat)
  /-- Adds this many copies of the sign bit in front. -/
  | signExtend (count : Nat)
  | extract (hi lo : Nat)
  /-- One bit as a truth value. -/
  | testBit (i : Nat)
  | apply (name : String)
  | table (id : Nat)
  | arrayRef (id : Nat)
  | select
  | umulNoOverflow | smulNoOverflow | smulNoUnderflow
  deriving DecidableEq, Inhabited

def Op.isComparison : Op → Bool
  | .eq | .neq | .lt | .le | .gt | .ge => true
  | _ => false

structure Expr where
  op : Op
  domain : Kind
  args : List NodeId
  deriving DecidableEq, Inhabited

namespace Expr

/-- The function that the expression applies. -/
def appliedName? (e : Expr) : Option String :=
  match e.op with
  | .apply name => some name
  | _ => none

/-- The spelling of an operator over a domain. -/
def head (op : Op) (domain : Kind) : String :=
  let word (s : String) (other : String) := if domain.isBitVec then s else other
  let ordered (signed unsigned float other : String) :=
    if domain.isBitVec then if domain.isSigned then signed else unsigned
    else if domain.isFloat then float
    else other
  match op with
  | .not => word "bvnot" "not"
  | .and => word "bvand" "and"
  | .or => word "bvor" "or"
  | .xor => word "bvxor" "xor"
  | .implies => "=>"
  | .ite => "ite"
  | .eq => if domain.isFloat then "fp.eq" else "="
  | .neq => "distinct"
  | .lt => ordered "bvslt" "bvult" "fp.lt" "<"
  | .le => ordered "bvsle" "bvule" "fp.leq" "<="
  | .gt => ordered "bvsgt" "bvugt" "fp.gt" ">"
  | .ge => ordered "bvsge" "bvuge" "fp.geq" ">="
  | .add => word "bvadd" "+"
  | .sub => word "bvsub" "-"
  | .mul => word "bvmul" "*"
  | .div => ordered "bvsdiv" "bvudiv" "/" (if domain = .int then "div" else "/")
  | .neg => word "bvneg" "-"
  | .zeroExtend n => s!"(_ zero_extend {n})"
  | .signExtend n => s!"(_ sign_extend {n})"
  | .extract hi lo => s!"(_ extract {hi} {lo})"
  | .testBit i => s!"(_ extract {i} {i})"
  | .apply name => name
  | .table id => s!"table{id}"
  | .arrayRef id => s!"array_{id}"
  | .select => "select"
  | .umulNoOverflow => "bvumul_noovfl"
  | .smulNoOverflow => "bvsmul_noovfl"
  | .smulNoUnderflow => "bvsmul_noudfl"

/-- The SMT-LIB term, operands named by `nameOf`. A bit test compares the extracted bit, and a
reference to an array is a name whatever its operands. -/
def render (nameOf : NodeId → String) (e : Expr) : String :=
  let args := " ".intercalate (e.args.map nameOf)
  let head := head e.op e.domain
  match e.op with
  | .arrayRef _ => head
  | .testBit _ => s!"(= ({head} {args}) #b1)"
  | _ => if e.args.isEmpty then head else s!"({head} {args})"

end Expr

end SmtLowering
