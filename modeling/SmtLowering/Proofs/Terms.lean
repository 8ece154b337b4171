import SmtLowering.Proofs.SExpr
import SmtLowering.Proofs.Semantics

/-!
# Terms

The terms of SMT-LIB that bodies consist of, with lexical scoping: a name is what the innermost
`let` binds it to, else a symbol. `Interpretation.theory` says what the symbols of the theories do;
any other symbol is one that something declares. A binding need not have a value, as long as none
is asked for.

`SExpr.term` reads an S-expression as a term. What stands for a name, on the right side of its
binding or as the whole body, may be the literal of a constant; which S-expressions are is a
parameter (`Literals`).
-/

namespace SmtLowering

inductive Term
  | literal (c : Literal)
  | name (x : String)
  /-- A symbol, indexed if there are indices, applied to arguments. -/
  | apply (symbol : String) (indices : List Nat) (args : List Term)
  | bind (x : String) (value body : Term)

section Theory

variable {U : Type}

/-- What a symbol does, given its indices and the values of its arguments. -/
abbrev SymbolMeaning (U : Type) := List Nat → List (Datum U) → Option (Datum U)

namespace SymbolMeaning

def ofNone (d : Datum U) : SymbolMeaning U
  | [], [] => some d
  | _, _ => none

def ofOne (f : Datum U → Option (Datum U)) : SymbolMeaning U
  | [], [a] => f a
  | _, _ => none

def ofTwo (f : Datum U → Datum U → Option (Datum U)) : SymbolMeaning U
  | [], [a, b] => f a b
  | _, _ => none

def choice : SymbolMeaning U
  | [], [.bool c, t, e] => some (if c then t else e)
  | _, _ => none

/-- Negation of one number, difference of two. -/
noncomputable def minus : SymbolMeaning U
  | [], [a] => a.onNumber (- ·) (- ·)
  | [], [a, b] => a.onNumbers (fun x y => .int (x - y)) (fun x y => .real (x - y)) b
  | _, _ => none

def extension (f : {n : Nat} → (count : Nat) → BitVec n → BitVec (n + count)) : SymbolMeaning U
  | [count], [a] => a.onWord fun x => .word (f count x)
  | _, _ => none

def extraction : SymbolMeaning U
  | [hi, lo], [.word (n := n) x] =>
    if lo ≤ hi ∧ hi < n then some (.word (x.extractLsb' lo (hi - lo + 1))) else none
  | _, _ => none

def words (f : {n : Nat} → BitVec n → BitVec n → BitVec n) : SymbolMeaning U :=
  ofTwo (Datum.onWords fun x y => .word (f x y))

def wordTest (f : {n : Nat} → BitVec n → BitVec n → Bool) : SymbolMeaning U :=
  ofTwo (Datum.onWords fun x y => .bool (f x y))

noncomputable def numbers (f : Int → Int → Int) (g : ℝ → ℝ → ℝ) : SymbolMeaning U :=
  ofTwo (Datum.onNumbers (fun x y => .int (f x y)) fun x y => .real (g x y))

def numberTest (f : Int → Int → Bool) (g : ℝ → ℝ → Bool) : SymbolMeaning U :=
  ofTwo (Datum.onNumbers (fun x y => .bool (f x y)) fun x y => .bool (g x y))

end SymbolMeaning

namespace Interpretation

open SymbolMeaning

variable (I : Interpretation U)

def elementOf : Datum U → Datum U → Option (Datum U)
  | .other u, i => some (I.select u i)
  | _, _ => none

open Classical in
/-- The symbols of the theories. -/
noncomputable def theory : List (String × SymbolMeaning U) :=
  [("true", ofNone (.bool true)), ("false", ofNone (.bool false)),
    ("not", ofOne (Datum.onBool (! ·))),
    ("and", ofTwo (Datum.onBools (· && ·))), ("or", ofTwo (Datum.onBools (· || ·))),
    ("xor", ofTwo (Datum.onBools (· != ·))), ("=>", ofTwo (Datum.onBools (! · || ·))),
    ("ite", choice),
    ("=", ofTwo fun a b => some (.bool (decide (a = b)))),
    ("distinct", ofTwo fun a b => some (.bool (!decide (a = b)))),
    ("-", minus), ("+", numbers (· + ·) (· + ·)), ("*", numbers (· * ·) (· * ·)),
    ("div", ofTwo I.quotientOfInts), ("/", ofTwo I.quotientOfReals),
    ("<", numberTest (decide <| · < ·) (decide <| · < ·)),
    ("<=", numberTest (decide <| · ≤ ·) (decide <| · ≤ ·)),
    (">", numberTest (decide <| · > ·) (decide <| · > ·)),
    (">=", numberTest (decide <| · ≥ ·) (decide <| · ≥ ·)),
    ("bvnot", ofOne (Datum.onWord fun x => .word (~~~x))),
    ("bvneg", ofOne (Datum.onWord fun x => .word (-x))),
    ("bvand", words (· &&& ·)), ("bvor", words (· ||| ·)), ("bvxor", words (· ^^^ ·)),
    ("bvadd", words (· + ·)), ("bvsub", words (· - ·)), ("bvmul", words (· * ·)),
    ("bvsdiv", words BitVec.smtSDiv), ("bvudiv", words BitVec.smtUDiv),
    ("bvslt", wordTest BitVec.slt), ("bvult", wordTest BitVec.ult),
    ("bvsle", wordTest BitVec.sle), ("bvule", wordTest BitVec.ule),
    ("bvsgt", wordTest fun x y => y.slt x), ("bvugt", wordTest fun x y => y.ult x),
    ("bvsge", wordTest fun x y => y.sle x), ("bvuge", wordTest fun x y => y.ule x),
    ("bvumul_noovfl", wordTest fun {n} x y => decide (x.toNat * y.toNat < 2 ^ n)),
    ("bvsmul_noovfl", wordTest fun {n} x y => decide (x.toInt * y.toInt < 2 ^ (n - 1))),
    ("bvsmul_noudfl", wordTest fun {n} x y => decide (-2 ^ (n - 1) ≤ x.toInt * y.toInt)),
    ("zero_extend", extension fun {n} count x => x.setWidth (n + count)),
    ("sign_extend", extension fun {n} count x => x.signExtend (n + count)),
    ("extract", extraction),
    ("fp.eq", ofTwo (I.floats "fp.eq")), ("fp.lt", ofTwo (I.floats "fp.lt")),
    ("fp.leq", ofTwo (I.floats "fp.leq")), ("fp.gt", ofTwo (I.floats "fp.gt")),
    ("fp.geq", ofTwo (I.floats "fp.geq")),
    ("select", ofTwo I.elementOf)]

/-- What a symbol does; one that no theory knows is declared, and has no indices. -/
noncomputable def symbol (f : String) : SymbolMeaning U := fun indices ds =>
  match I.theory.lookup f with
  | some meaning => meaning indices ds
  | none => if indices = [] then some (I.apply f ds) else none

end Interpretation

/-- The names of the theories' symbols. -/
def theoryNames : List String :=
  ["true", "false", "not", "and", "or", "xor", "=>", "ite", "=", "distinct", "-", "+", "*", "div",
    "/", "<", "<=", ">", ">=", "bvnot", "bvneg", "bvand", "bvor", "bvxor", "bvadd", "bvsub",
    "bvmul", "bvsdiv", "bvudiv", "bvslt", "bvult", "bvsle", "bvule", "bvsgt", "bvugt", "bvsge",
    "bvuge", "bvumul_noovfl", "bvsmul_noovfl", "bvsmul_noudfl", "zero_extend", "sign_extend",
    "extract", "fp.eq", "fp.lt", "fp.leq", "fp.gt", "fp.geq", "select"]

theorem Interpretation.theory_names (I : Interpretation U) :
    I.theory.map (·.1) = theoryNames := rfl

theorem Interpretation.symbol_of_not_mem (I : Interpretation U) {f : String}
    (h : f ∉ theoryNames) (ds : List (Datum U)) : I.symbol f [] ds = some (I.apply f ds) := by
  have hnone : I.theory.lookup f = none := by
    rw [List.lookup_eq_none_iff]
    intro p hp
    rw [bne_iff_ne]
    rintro rfl
    exact h (I.theory_names ▸ List.mem_map_of_mem hp)
  simp only [symbol, hnone, if_true]

end Theory

namespace Term

variable {U : Type} (I : Interpretation U)

/-- What the names in scope are bound to, innermost first. -/
abbrev Env (U : Type) := List (String × Option (Datum U))

mutual

noncomputable def eval (env : Env U) : Term → Option (Datum U)
  | .literal c => I.literal c
  | .name x =>
    match env.lookup x with
    | some d => d
    | none => I.symbol x [] []
  | .apply f indices args => (evalAll env args).bind (I.symbol f indices)
  | .bind x value body => body.eval ((x, value.eval env) :: env)

noncomputable def evalAll (env : Env U) : List Term → Option (List (Datum U))
  | [] => some []
  | t :: ts => (t.eval env).bind fun d => (evalAll env ts).map (d :: ·)

end

mutual

/-- Each name is in scope, a symbol of the theories or one of `fns`; only the last two are
applied. -/
def ClosedOver (vars fns : List String) : Term → Prop
  | .literal _ => True
  | .name x => x ∈ vars ∨ x ∈ theoryNames ∨ x ∈ fns
  | .apply f _ args => (f ∈ theoryNames ∨ f ∈ fns) ∧ AllClosedOver vars fns args
  | .bind x value body => value.ClosedOver vars fns ∧ body.ClosedOver (x :: vars) fns

def AllClosedOver (vars fns : List String) : List Term → Prop
  | [] => True
  | t :: ts => t.ClosedOver vars fns ∧ AllClosedOver vars fns ts

end

end Term

/-- The literal that an S-expression is, where it stands for a name. -/
abbrev Literals := String → SExpr → Option Literal

namespace SExpr

/-- A word in binary digits. -/
def binary? (s : String) : Option Literal :=
  match s.toList with
  | '#' :: 'b' :: digits =>
    if digits.all (fun c => c = '0' || c = '1') then
      some (.word false digits.length (Nat.ofDigitChars 2 digits 0))
    else none
  | _ => none

/-- A number in decimal digits. -/
def numeral? (s : String) : Option Nat :=
  if s.toList ≠ [] ∧ s.toList.all Char.isDigit then some (Nat.ofDigitChars 10 s.toList 0) else none

def numerals? : SExpr → Option (List Nat)
  | .nil => some []
  | .cons (.atom s) rest => (numeral? s).bind fun n => (numerals? rest).map (n :: ·)
  | _ => none

/-- The names that a clause of parameters declares. -/
def parameters? : SExpr → Option (List String)
  | .nil => some []
  | .cons (.cons (.atom x) (.cons _ .nil)) rest => (parameters? rest).map (x :: ·)
  | _ => none

section Reading

variable (L : Literals)

/-- The literal of a constant, or else the term. -/
def orElse (position : Option String) (e : SExpr) (t : Option Term) : Option Term :=
  match position.bind (L · e) with
  | some c => some (.literal c)
  | none => t

mutual

/-- The term, which stands for the name in `position`, if any. -/
def term (position : Option String) : SExpr → Option Term
  | .nil => orElse L position .nil none
  | .atom s => orElse L position (.atom s) (some (((binary? s).map .literal).getD (.name s)))
  | .cons (.atom f) args => orElse L position (.cons (.atom f) args) <|
    if f = "let" then
      match args with
      | .cons (.cons (.cons (.atom x) (.cons value .nil)) .nil) (.cons body .nil) =>
        (term (some x) value).bind fun v => (term none body).map (.bind x v ·)
      | _ => none
    else (terms args).map (.apply f [] ·)
  | .cons (.cons underscore indexed) args =>
    orElse L position (.cons (.cons underscore indexed) args) <|
      match underscore, indexed with
      | .atom "_", .cons (.atom f) indices =>
        (numerals? indices).bind fun is => (terms args).map (.apply f is ·)
      | _, _ => none
  | .cons .nil args => orElse L position (.cons .nil args) none

def terms : SExpr → Option (List Term)
  | .nil => some []
  | .cons e rest => (term none e).bind fun t => (terms rest).map (t :: ·)
  | .atom _ => none

end

end Reading

end SExpr

end SmtLowering
