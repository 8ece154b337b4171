import SmtLowering.Proofs.Typing
import SmtLowering.Proofs.Conformance

/-!
# Sorts

`Rank` are the operators that SMT-LIB, or the solver, knows, with the sorts of their arguments and
of their result. There are no words without bits and no floats without fields
(`SmtSort.WellFormed`), although there are kinds of them. On operands whose kinds stand for sorts
the kind rules agree with the ranks (`rank_of_kind?`), a kind standing for its sort, as signedness
is no matter of sorts.
-/

namespace SmtLowering

inductive SmtSort
  | bool
  | bitVec (width : Nat)
  | int
  | real
  | floatingPoint (exp sig : Nat)
  | array (key value : SmtSort)
  | named (name : String)
  deriving DecidableEq

/-- The sorts that there are: words have a bit, and both fields of a float have more than one. A
name stands for the sort that it declares. -/
def SmtSort.WellFormed : SmtSort → Prop
  | .bitVec n => 0 < n
  | .floatingPoint e s => 1 < e ∧ 1 < s
  | .array key value => key.WellFormed ∧ value.WellFormed
  | .bool | .int | .real | .named _ => True

def Kind.sort : Kind → SmtSort
  | .bool => .bool
  | .bitVec _ w => .bitVec w
  | .int => .int
  | .real => .real
  | .float e s => .floatingPoint e s
  | .array k v => .array k.sort v.sort
  | .uninterpreted name => .named name

/-- The operators with the sorts of their arguments and of their result. -/
inductive Rank : String → List SmtSort → SmtSort → Prop
  | not : Rank "not" [.bool] .bool
  | connective {f : String} (h : f ∈ ["and", "or", "xor", "=>"]) : Rank f [.bool, .bool] .bool
  | equality {f : String} (h : f ∈ ["=", "distinct"]) {s : SmtSort} (hs : s.WellFormed) :
      Rank f [s, s] .bool
  | ite {s : SmtSort} (hs : s.WellFormed) : Rank "ite" [.bool, s, s] s
  | wordUnary {f : String} (h : f ∈ ["bvnot", "bvneg"]) {n : Nat} (hn : 0 < n) :
      Rank f [.bitVec n] (.bitVec n)
  | wordBinary {f : String}
      (h : f ∈ ["bvand", "bvor", "bvxor", "bvadd", "bvsub", "bvmul", "bvudiv", "bvsdiv"])
      {n : Nat} (hn : 0 < n) : Rank f [.bitVec n, .bitVec n] (.bitVec n)
  | wordTest {f : String}
      (h : f ∈ ["bvult", "bvule", "bvugt", "bvuge", "bvslt", "bvsle", "bvsgt", "bvsge",
        "bvumul_noovfl", "bvsmul_noovfl", "bvsmul_noudfl"]) {n : Nat} (hn : 0 < n) :
      Rank f [.bitVec n, .bitVec n] .bool
  | zeroExtend (i : Nat) {n : Nat} (hn : 0 < n) :
      Rank s!"(_ zero_extend {i})" [.bitVec n] (.bitVec (n + i))
  | signExtend (i : Nat) {n : Nat} (hn : 0 < n) :
      Rank s!"(_ sign_extend {i})" [.bitVec n] (.bitVec (n + i))
  | extract {i j n : Nat} (hj : j ≤ i) (hi : i < n) :
      Rank s!"(_ extract {i} {j})" [.bitVec n] (.bitVec (i - j + 1))
  | intUnary : Rank "-" [.int] .int
  | intBinary {f : String} (h : f ∈ ["+", "-", "*", "div"]) : Rank f [.int, .int] .int
  | intTest {f : String} (h : f ∈ ["<", "<=", ">", ">="]) : Rank f [.int, .int] .bool
  | realUnary : Rank "-" [.real] .real
  | realBinary {f : String} (h : f ∈ ["+", "-", "*", "/"]) : Rank f [.real, .real] .real
  | realTest {f : String} (h : f ∈ ["<", "<=", ">", ">="]) : Rank f [.real, .real] .bool
  | floatTest {f : String} (h : f ∈ ["fp.eq", "fp.lt", "fp.leq", "fp.gt", "fp.geq"]) {e s : Nat}
      (he : 1 < e) (hs : 1 < s) : Rank f [.floatingPoint e s, .floatingPoint e s] .bool
  | select {key value : SmtSort} (hk : key.WellFormed) (hv : value.WellFormed) :
      Rank "select" [.array key value, key] value

/-- Operators are about sorts that there are. -/
theorem Rank.wellFormed {f : String} {ss : List SmtSort} {s : SmtSort} (h : Rank f ss s) :
    ∀ t ∈ s :: ss, t.WellFormed := by
  cases h with
  | not | connective | intUnary | intBinary | intTest | realUnary | realBinary | realTest =>
    simp [SmtSort.WellFormed]
  | equality _ hs | ite hs => simp [SmtSort.WellFormed, hs]
  | wordUnary _ hn | wordBinary _ hn | wordTest _ hn => simp [SmtSort.WellFormed, hn]
  | zeroExtend i hn | signExtend i hn =>
    simp [SmtSort.WellFormed, hn, Nat.add_pos_left hn i]
  | extract hj hi => simp [SmtSort.WellFormed, Nat.zero_lt_of_lt hi]
  | floatTest _ he hs => simp [SmtSort.WellFormed, he, hs]
  | select hk hv => simp [SmtSort.WellFormed, hk, hv]

namespace Expr

section Heads

variable (d : Kind)

theorem head_not : head .not d = if d.isBitVec then "bvnot" else "not" := rfl

theorem head_and : head .and d = if d.isBitVec then "bvand" else "and" := rfl

theorem head_or : head .or d = if d.isBitVec then "bvor" else "or" := rfl

theorem head_xor : head .xor d = if d.isBitVec then "bvxor" else "xor" := rfl

theorem head_eq : head .eq d = if d.isFloat then "fp.eq" else "=" := rfl

theorem head_lt : head .lt d =
    if d.isBitVec then if d.isSigned then "bvslt" else "bvult"
    else if d.isFloat then "fp.lt" else "<" := rfl

theorem head_le : head .le d =
    if d.isBitVec then if d.isSigned then "bvsle" else "bvule"
    else if d.isFloat then "fp.leq" else "<=" := rfl

theorem head_gt : head .gt d =
    if d.isBitVec then if d.isSigned then "bvsgt" else "bvugt"
    else if d.isFloat then "fp.gt" else ">" := rfl

theorem head_ge : head .ge d =
    if d.isBitVec then if d.isSigned then "bvsge" else "bvuge"
    else if d.isFloat then "fp.geq" else ">=" := rfl

theorem head_add : head .add d = if d.isBitVec then "bvadd" else "+" := rfl

theorem head_sub : head .sub d = if d.isBitVec then "bvsub" else "-" := rfl

theorem head_mul : head .mul d = if d.isBitVec then "bvmul" else "*" := rfl

theorem head_div : head .div d =
    if d.isBitVec then if d.isSigned then "bvsdiv" else "bvudiv"
    else if d.isFloat then "/" else if d = .int then "div" else "/" := rfl

theorem head_neg : head .neg d = if d.isBitVec then "bvneg" else "-" := rfl

end Heads

end Expr

section Rules

variable {domain k : Kind} {ks : List Kind} (hs : domain.sort.WellFormed)
include hs

theorem rank_eq : Rank (Expr.head .eq domain) [domain.sort, domain.sort] .bool := by
  cases domain with
  | float e s => exact .floatTest (by simp [Expr.head_eq, Kind.isFloat]) hs.1 hs.2
  | _ => exact .equality (by simp [Expr.head_eq, Kind.isFloat]) hs

omit hs

end Rules

end SmtLowering
