import SmtLowering.Proofs.Rules
import SmtLowering.Proofs.Words

/-!
# Kinds of results

Folding literals that are well formed gives literals that are, of the kind that the rule of the
operator assigns (`foldUnary_typed`, `foldBinary_typed`). So what an operation on values gives has
the kind that its own rule assigns to its operands, folded or not, and its node obeys the rule of
its operator (`Primitive.plan_typed`).
-/

namespace SmtLowering

namespace Literal

/-- The literal is well formed and of the kind. -/
def HasKind (c : Literal) (k : Kind) : Prop := c.WellFormed ∧ c.kind = k

theorem bool_hasKind (b : Bool) : (bool b).HasKind .bool := ⟨trivial, rfl⟩

theorem real_hasKind (q : Rat) : (real q).HasKind .real := ⟨trivial, rfl⟩

theorem word_hasKind (s : Bool) (w : Nat) (v : Int) : (word s w v).HasKind (.bitVec s w) :=
  ⟨word_wellFormed s w v, rfl⟩

/-- Integers are wrapped under word kinds and kept under the kind of integers. -/
theorem ofInt_hasKind {k : Kind} (h : k.isBitVec ∨ k = .int) (v : Int) : (ofInt k v).HasKind k := by
  cases k with
  | bitVec s w => exact word_hasKind s w v
  | int => exact ⟨trivial, rfl⟩
  | _ => rcases h with h | h <;> cases h

/-- Literals with a payload of their kind. -/
inductive Canonical : Literal → Prop
  | bool (b : Bool) : Canonical ⟨.bool, .bool b⟩
  | word {s : Bool} {w : Nat} {v : Int} (h : wrap s w v = v) : Canonical ⟨.bitVec s w, .int v⟩
  | int (i : Int) : Canonical ⟨.int, .int i⟩
  | real (q : Rat) : Canonical ⟨.real, .real q⟩
  | float (exp sig : Nat) (x : Binary64) : Canonical ⟨.float exp sig, .float x⟩

theorem WellFormed.canonical {c : Literal} (h : c.WellFormed) : c.Canonical := by
  obtain ⟨kind, p⟩ := c
  cases kind <;> cases p <;> first | exact h.elim | constructor
  exact h

end Literal

section Folding

/-- Operators on bits obey their kind rule. -/
theorem foldBits_typed {op : Op} {s : Bool} {w : Nat} {i : Int} {k : Kind} {d : Literal}
    (hk : op.kind? (.bitVec s w) [.bitVec s w] = some k) (h : foldBits op w i k = some d) :
    d.HasKind k := by
  cases Op.kinded hk with
  | not | zeroExtend | signExtend | extract =>
    cases h
    exact Literal.word_hasKind _ _ _
  | testBit =>
    cases h
    exact Literal.bool_hasKind _
  | neg => cases h

theorem foldUnary_typed {op : Op} {c d : Literal} {k : Kind} (hc : c.WellFormed)
    (hk : op.kind? c.kind [c.kind] = some k) (h : foldUnary op c k = some d) : d.HasKind k := by
  cases hc.canonical with
  | bool b =>
    simp only [foldUnary] at h
    split_ifs at h with hop
    subst hop
    cases hk
    cases h
    exact Literal.bool_hasKind _
  | word hv =>
    simp only [foldUnary] at h
    split_ifs at h with hop
    · subst hop
      cases Op.kinded hk
      cases h
      exact Literal.word_hasKind _ _ _
    · exact foldBits_typed hk h
  | int i =>
    simp only [foldUnary] at h
    split_ifs at h with hop
    · subst hop
      cases hk
      cases h
      exact ⟨trivial, rfl⟩
    · cases h
  | real q =>
    simp only [foldUnary] at h
    split_ifs at h with hop
    subst hop
    cases hk
    cases h
    exact Literal.real_hasKind _
  | float exp sig x => cases h

/-- Arithmetic on integers and words obeys its kind rule. -/
theorem foldInt_typed {op : Op} {a b : Int} {domain k : Kind} {d : Literal}
    (hd : domain.isBitVec ∨ domain = .int) (hk : op.kind? domain [domain, domain] = some k)
    (h : foldInt op a b k = some d) : d.HasKind k := by
  cases Op.kinded hk with
  | add | sub | mul =>
    cases h
    exact Literal.ofInt_hasKind hd _
  | div =>
    cases domain with
    | bitVec s w =>
      cases h
      exact Literal.word_hasKind _ _ _
    | int =>
      simp only [foldInt, foldDiv] at h
      split_ifs at h
      cases h
      exact ⟨trivial, rfl⟩
    | _ => rcases hd with hd | hd <;> cases hd
  | _ => cases h

theorem foldWord_typed {op : Op} {s : Bool} {w : Nat} {a b : Int} {k : Kind} {d : Literal}
    (hk : op.kind? (.bitVec s w) [.bitVec s w, .bitVec s w] = some k)
    (h : foldWord op w a b k = some d) : d.HasKind k := by
  cases Op.kinded hk with
  | and | or | xor =>
    cases h
    exact Literal.word_hasKind _ _ _
  | umulNoOverflow | smulNoOverflow | smulNoUnderflow =>
    cases h
    exact Literal.bool_hasKind _
  | _ => cases h

theorem foldRat_typed {op : Op} {a b : Rat} {k : Kind} {d : Literal}
    (hk : op.kind? .real [.real, .real] = some k) (h : foldRat op a b = some d) : d.HasKind k := by
  cases op with
  | add | sub | mul =>
    cases hk
    cases h
    exact Literal.real_hasKind _
  | div =>
    cases hk
    simp only [foldRat] at h
    split_ifs at h
    cases h
    exact Literal.real_hasKind _
  | _ => cases h

theorem foldBool_typed {op : Op} {a b r : Bool} {k : Kind}
    (hk : op.kind? .bool [.bool, .bool] = some k) (h : foldBool op a b = some r) :
    (Literal.bool r).HasKind k := by
  cases op with
  | and | or | xor | implies =>
    cases hk
    exact Literal.bool_hasKind _
  | _ => cases h

theorem kind?_comparison {op : Op} {domain k : Kind} {ks : List Kind} (hop : op.isComparison)
    (hk : op.kind? domain ks = some k) : k = .bool := by
  cases Op.kinded hk <;> first | rfl | cases hop

theorem foldBinary_typed {op : Op} {c d r : Literal} {k : Kind} (hc : c.WellFormed)
    (hd : d.WellFormed) (he : c.kind = d.kind) (hk : op.kind? c.kind [c.kind, d.kind] = some k)
    (h : foldBinary op c d k = some r) : r.HasKind k := by
  unfold foldBinary at h
  split_ifs at h with hop
  · obtain rfl := kind?_comparison hop hk
    obtain ⟨b, -, rfl⟩ := Option.map_eq_some_iff.1 h
    exact Literal.bool_hasKind b
  · cases hc.canonical with
    | bool a =>
      cases hd.canonical with
      | bool b =>
        obtain ⟨e, he, rfl⟩ := Option.map_eq_some_iff.1 h
        exact foldBool_typed hk he
      | _ => cases he
    | word =>
      cases hd.canonical with
      | word =>
        cases he
        rcases Option.or_eq_some_iff.1 h with h | ⟨-, h⟩
        · exact foldInt_typed (.inl rfl) hk h
        · exact foldWord_typed hk h
      | _ => cases he
    | int a =>
      cases hd.canonical with
      | int b =>
        rcases Option.or_eq_some_iff.1 h with h | ⟨-, h⟩
        · exact foldInt_typed (.inr rfl) hk h
        · cases h
      | _ => cases he
    | real a =>
      cases hd.canonical with
      | real b => exact foldRat_typed hk h
      | _ => cases he
    | float exp sig x => cases hd.canonical <;> cases h

end Folding

/-- A literal among values is well formed. -/
def Value.WellFormed : Value → Prop
  | .concrete c => c.WellFormed
  | .symbolic .. => True

namespace Plan

/-- The value has the kind, or the node has it by the rule of its operator. -/
def Typed (k? : Option Kind) : Plan → Prop
  | .give v => k? = some v.kind ∧ v.WellFormed
  | .refuse _ => True
  | .node op domain vs k => k? = some k ∧ op.kind? domain (vs.map Value.kind) = some k

/-- A value that is known to be a truth value is a literal, hence of their kind. -/
theorem kind_of_asBool? {a : Value} {x : Bool} (ha : a.WellFormed) (h : a.asBool? = some x) :
    a.kind = .bool := by
  cases a with
  | concrete c =>
    cases Literal.WellFormed.canonical ha with
    | bool b => rfl
    | _ => cases h
  | symbolic n k number => cases h

theorem Follows.typed {vs : List Value} {p : Plan} {k? : Option Kind} (h : p.Follows vs k?)
    (hvs : ∀ v ∈ vs, v.WellFormed) : p.Typed k? := by
  cases h with
  | kindMismatch | invalidOperand | violation => trivial
  | truth b hk => exact ⟨hk, trivial⟩
  | decided b hv hx hk => exact ⟨hk.trans (congrArg some (kind_of_asBool? (hvs _ hv) hx)), trivial⟩
  | operand hv hk => exact ⟨hk, hvs _ hv⟩
  | foldedUnary hc _ hop hf hk =>
    obtain ⟨hd, rfl⟩ := foldUnary_typed (hvs _ hc) hop hf
    exact ⟨hk, hd⟩
  | foldedBinary hc hd _ he hop hf hk =>
    obtain ⟨hr, rfl⟩ := foldBinary_typed (hvs _ hc) (hvs _ hd) he hop hf
    exact ⟨hk, hr⟩
  | node _ _ hop hk => exact ⟨hk, hop⟩

end Plan

theorem Primitive.plan_typed (p : Primitive) (h : ∀ v ∈ p.operands, v.WellFormed) :
    p.plan.Typed p.kind? := p.plan_follows.typed h

end SmtLowering
