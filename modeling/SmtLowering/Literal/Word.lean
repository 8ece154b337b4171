import SmtLowering.Error

/-!
# Literals of a word kind

A number, the least word and the greatest word of a kind that has to be a word kind; any other kind
is a violation.
-/

namespace SmtLowering.Literal

/-- The word of kind `k` that `v` wraps to. -/
def wrapped (k : Kind) (v : Int) : Except Violation Literal :=
  match k with
  | .bitVec signed width => .ok (.word signed width v)
  | k => .error (.wordExpected k)

def least (k : Kind) : Except Violation Literal :=
  match k with
  | .bitVec signed width => .ok (.minWord signed width)
  | k => .error (.wordExpected k)

def greatest (k : Kind) : Except Violation Literal :=
  match k with
  | .bitVec signed width => .ok (.maxWord signed width)
  | k => .error (.maxWordExpected k)

end SmtLowering.Literal
