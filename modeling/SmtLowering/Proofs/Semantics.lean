import Mathlib.Data.Real.Basic
import SmtLowering.Expr
import SmtLowering.Literal

/-!
# Values of expressions

What an operator does on values of its operands (`Interpretation.denote`), and what a literal stands
for (`Interpretation.literal`). Words are bit vectors and reals are the real numbers; an
interpretation is free in what SMT-LIB leaves open or this development does not look into: the
functions, tables and arrays that something declares, division by zero of numbers, floats, and the
elements of any other sort.
-/

namespace SmtLowering

/-- Values; those of sorts without a meaning of their own are the elements of `U`. -/
inductive Datum (U : Type)
  | bool (b : Bool)
  | word {n : Nat} (x : BitVec n)
  | int (i : Int)
  | real (r : ℝ)
  | other (u : U)

structure Interpretation (U : Type) where
  float : (exp sig : Nat) → Binary64 → U
  /-- The comparisons of floats, by name. -/
  floatTest : String → U → U → Bool
  /-- An array's element at an index. -/
  select : U → Datum U → Datum U
  /-- What a name that something declares stands for. -/
  apply : String → List (Datum U) → Datum U
  intDivZero : Int → Int
  realDivZero : ℝ → ℝ

namespace Datum

variable {U : Type}

def onBool (f : Bool → Bool) : Datum U → Option (Datum U)
  | .bool a => some (.bool (f a))
  | _ => none

def onBools (f : Bool → Bool → Bool) : Datum U → Datum U → Option (Datum U)
  | .bool a, .bool b => some (.bool (f a b))
  | _, _ => none

def onWord (f : {n : Nat} → BitVec n → Datum U) : Datum U → Option (Datum U)
  | .word x => some (f x)
  | _ => none

/-- A function of words of one width. -/
def onWords (f : {n : Nat} → BitVec n → BitVec n → Datum U) : Datum U → Datum U → Option (Datum U)
  | .word (n := n) x, .word (n := m) y => if h : m = n then some (f x (y.cast h)) else none
  | _, _ => none

/-- A function of integers, or of reals. -/
def onNumbers (f : Int → Int → Datum U) (g : ℝ → ℝ → Datum U) : Datum U → Datum U → Option (Datum U)
  | .int a, .int b => some (f a b)
  | .real a, .real b => some (g a b)
  | _, _ => none

def onNumber (f : Int → Int) (g : ℝ → ℝ) : Datum U → Option (Datum U)
  | .int a => some (.int (f a))
  | .real a => some (.real (g a))
  | _ => none

/-- A word operator where the domain is words, one of numbers elsewhere. -/
def arith (domain : Kind) (f : {n : Nat} → BitVec n → BitVec n → BitVec n) (g : Int → Int → Int)
    (h : ℝ → ℝ → ℝ) (a b : Datum U) : Option (Datum U) :=
  if domain.isBitVec then a.onWords (fun x y => .word (f x y)) b
  else a.onNumbers (fun x y => .int (g x y)) (fun x y => .real (h x y)) b

/-- A bitwise operator where the domain is words, a connective elsewhere. -/
def connective (domain : Kind) (f : {n : Nat} → BitVec n → BitVec n → BitVec n)
    (g : Bool → Bool → Bool) (a b : Datum U) : Option (Datum U) :=
  if domain.isBitVec then a.onWords (fun x y => .word (f x y)) b else a.onBools g b

/-- An operator on one value. -/
noncomputable def unary (a : Datum U) (op : Op) (domain : Kind) : Option (Datum U) :=
  match op with
  | .not => if domain.isBitVec then a.onWord fun x => .word (~~~x) else a.onBool (! ·)
  | .neg =>
    if domain.isBitVec then a.onWord fun x => .word (-x) else a.onNumber (- ·) (- ·)
  | .zeroExtend count => a.onWord fun {n} x => .word (x.setWidth (n + count))
  | .signExtend count => a.onWord fun {n} x => .word (x.signExtend (n + count))
  | .extract hi lo =>
    match a with
    | .word (n := n) x =>
      if lo ≤ hi ∧ hi < n then some (.word (x.extractLsb' lo (hi - lo + 1))) else none
    | _ => none
  | .testBit i =>
    match a with
    | .word (n := n) x => if i < n then some (.bool (x.getLsbD i)) else none
    | _ => none
  | _ => none

end Datum

namespace Interpretation

variable {U : Type} (I : Interpretation U)

def literal : Literal → Option (Datum U)
  | ⟨.bool, .bool b⟩ => some (.bool b)
  | ⟨.bitVec _ n, .int v⟩ => some (.word (BitVec.ofInt n v))
  | ⟨.int, .int v⟩ => some (.int v)
  | ⟨.real, .real q⟩ => some (.real q)
  | ⟨.float exp sig, .float x⟩ => some (.other (I.float exp sig x))
  | _ => none

def floats (name : String) : Datum U → Datum U → Option (Datum U)
  | .other u, .other v => some (.bool (I.floatTest name u v))
  | _, _ => none

/-- The quotient of integers leaves a remainder that is not negative. -/
def intDiv (a b : Int) : Int := if b = 0 then I.intDivZero a else a / b

open Classical in
noncomputable def realDiv (a b : ℝ) : ℝ := if b = 0 then I.realDivZero a else a / b

/-- An ordering, of words by the domain's signedness. -/
noncomputable def order (domain : Kind) (float : String)
    (signed unsigned : {n : Nat} → BitVec n → BitVec n → Bool) (f : Int → Int → Bool)
    (g : ℝ → ℝ → Bool) (a b : Datum U) : Option (Datum U) :=
  if domain.isBitVec then
    if domain.isSigned then a.onWords (fun x y => .bool (signed x y)) b
    else a.onWords (fun x y => .bool (unsigned x y)) b
  else if domain.isFloat then I.floats float a b
  else a.onNumbers (fun x y => .bool (f x y)) (fun x y => .bool (g x y)) b

def quotientOfInts : Datum U → Datum U → Option (Datum U)
  | .int a, .int b => some (.int (I.intDiv a b))
  | _, _ => none

noncomputable def quotientOfReals : Datum U → Datum U → Option (Datum U)
  | .real a, .real b => some (.real (I.realDiv a b))
  | _, _ => none

/-- The quotient of words by the domain's signedness, of integers where these are the domain. -/
noncomputable def quotient (domain : Kind) (a b : Datum U) : Option (Datum U) :=
  if domain.isBitVec then
    if domain.isSigned then a.onWords (fun x y => .word (x.smtSDiv y)) b
    else a.onWords (fun x y => .word (x.smtUDiv y)) b
  else if domain = .int then I.quotientOfInts a b
  else I.quotientOfReals a b

open Classical in
/-- An operator on two values. -/
noncomputable def binary (op : Op) (domain : Kind) (a b : Datum U) : Option (Datum U) :=
  match op with
  | .and => Datum.connective domain (· &&& ·) (· && ·) a b
  | .or => Datum.connective domain (· ||| ·) (· || ·) a b
  | .xor => Datum.connective domain (· ^^^ ·) (· != ·) a b
  | .implies => a.onBools (! · || ·) b
  | .eq => if domain.isFloat then I.floats "fp.eq" a b else some (.bool (decide (a = b)))
  | .neq => some (.bool (!decide (a = b)))
  | .lt => I.order domain "fp.lt" BitVec.slt BitVec.ult (decide <| · < ·) (decide <| · < ·) a b
  | .le => I.order domain "fp.leq" BitVec.sle BitVec.ule (decide <| · ≤ ·) (decide <| · ≤ ·) a b
  | .gt =>
    I.order domain "fp.gt" (fun x y => y.slt x) (fun x y => y.ult x) (decide <| · > ·)
      (decide <| · > ·) a b
  | .ge =>
    I.order domain "fp.geq" (fun x y => y.sle x) (fun x y => y.ule x) (decide <| · ≥ ·)
      (decide <| · ≥ ·) a b
  | .add => Datum.arith domain (· + ·) (· + ·) (· + ·) a b
  | .sub => Datum.arith domain (· - ·) (· - ·) (· - ·) a b
  | .mul => Datum.arith domain (· * ·) (· * ·) (· * ·) a b
  | .div => I.quotient domain a b
  | .select =>
    match a with
    | .other u => some (I.select u b)
    | _ => none
  | .umulNoOverflow => a.onWords (fun {n} x y => .bool (decide (x.toNat * y.toNat < 2 ^ n))) b
  | .smulNoOverflow =>
    a.onWords (fun {n} x y => .bool (decide (x.toInt * y.toInt < 2 ^ (n - 1)))) b
  | .smulNoUnderflow =>
    a.onWords (fun {n} x y => .bool (decide (-2 ^ (n - 1) ≤ x.toInt * y.toInt))) b
  | _ => none

/-- The value of an operator over a domain. -/
noncomputable def denote (op : Op) (domain : Kind) (ds : List (Datum U)) : Option (Datum U) :=
  match op, ds with
  | .apply name, ds => some (I.apply name ds)
  | .table id, ds => some (I.apply s!"table{id}" ds)
  | .arrayRef id, _ => some (I.apply s!"array_{id}" [])
  | .ite, [.bool c, t, e] => some (if c then t else e)
  | op, [a] => a.unary op domain
  | op, [a, b] => I.binary op domain a b
  | _, _ => none

section Words

variable {s : Bool} {n : Nat} {x y : BitVec n}

@[simp]
theorem onWords_word (f : {n : Nat} → BitVec n → BitVec n → Datum U) :
    Datum.onWords f (.word x) (.word y) = some (f x y) := by
  simp [Datum.onWords]

@[simp]
theorem and_word : I.binary .and (.bitVec s n) (.word x) (.word y) = some (.word (x &&& y)) :=
  onWords_word fun x y => .word (x &&& y)

@[simp]
theorem or_word : I.binary .or (.bitVec s n) (.word x) (.word y) = some (.word (x ||| y)) :=
  onWords_word fun x y => .word (x ||| y)

@[simp]
theorem xor_word : I.binary .xor (.bitVec s n) (.word x) (.word y) = some (.word (x ^^^ y)) :=
  onWords_word fun x y => .word (x ^^^ y)

@[simp]
theorem add_word : I.binary .add (.bitVec s n) (.word x) (.word y) = some (.word (x + y)) :=
  onWords_word fun x y => .word (x + y)

@[simp]
theorem sub_word : I.binary .sub (.bitVec s n) (.word x) (.word y) = some (.word (x - y)) :=
  onWords_word fun x y => .word (x - y)

@[simp]
theorem mul_word : I.binary .mul (.bitVec s n) (.word x) (.word y) = some (.word (x * y)) :=
  onWords_word fun x y => .word (x * y)

@[simp]
theorem div_word : I.binary .div (.bitVec s n) (.word x) (.word y) =
    some (.word (if s then x.smtSDiv y else x.smtUDiv y)) := by
  cases s with
  | false => exact onWords_word fun x y => .word (x.smtUDiv y)
  | true => exact onWords_word fun x y => .word (x.smtSDiv y)

@[simp]
theorem eq_word :
    I.binary .eq (.bitVec s n) (.word x) (.word y) = some (.bool (decide (x = y))) := by
  classical
  show some (Datum.bool (decide (Datum.word x = .word y))) = _
  simp

@[simp]
theorem neq_word :
    I.binary .neq (.bitVec s n) (.word x) (.word y) = some (.bool (!decide (x = y))) := by
  classical
  show some (Datum.bool (!decide (Datum.word x = .word y))) = _
  simp

@[simp]
theorem umulNoOverflow_word : I.binary .umulNoOverflow (.bitVec s n) (.word x) (.word y) =
    some (.bool (decide (x.toNat * y.toNat < 2 ^ n))) :=
  onWords_word fun {n} x y => .bool (decide (x.toNat * y.toNat < 2 ^ n))

@[simp]
theorem smulNoOverflow_word : I.binary .smulNoOverflow (.bitVec s n) (.word x) (.word y) =
    some (.bool (decide (x.toInt * y.toInt < 2 ^ (n - 1)))) :=
  onWords_word fun {n} x y => .bool (decide (x.toInt * y.toInt < 2 ^ (n - 1)))

@[simp]
theorem smulNoUnderflow_word : I.binary .smulNoUnderflow (.bitVec s n) (.word x) (.word y) =
    some (.bool (decide (-2 ^ (n - 1) ≤ x.toInt * y.toInt))) :=
  onWords_word fun {n} x y => .bool (decide (-2 ^ (n - 1) ≤ x.toInt * y.toInt))

theorem order_word (float : String) (signed unsigned : {n : Nat} → BitVec n → BitVec n → Bool)
    (f : Int → Int → Bool) (g : ℝ → ℝ → Bool) :
    I.order (.bitVec s n) float signed unsigned f g (.word x) (.word y) =
      some (.bool (if s then signed x y else unsigned x y)) := by
  cases s with
  | false => exact onWords_word fun x y => .bool (unsigned x y)
  | true => exact onWords_word fun x y => .bool (signed x y)

end Words

end Interpretation

end SmtLowering
