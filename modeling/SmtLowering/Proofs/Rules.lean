import SmtLowering.Proofs.Plan

/-!
# The rules of operations

`Op.kind?` is the kind rule of an operator over its operands' kinds, and `Primitive.kind?` that of
an operation on values. `Plan.Follows` lists all that such an operation can do
(`Primitive.plan_follows`): it refuses the kinds of its operands, answers with a truth value or an
operand, folds literals, or makes a node by the rule of its operator. Whatever else holds of plans
is read off that list, first of all that they complain about kinds only and that the kind of a node
is fixed by its operator and domain (`Primitive.plan_regular`).
-/

namespace SmtLowering

def Kind.isBits (k : Kind) : Bool := k.isBool || k.isBitVec

/-- The kind of an operator over a domain, on operands of these kinds. Operators that stand for
something declared elsewhere have none. -/
def Op.kind? : Op → Kind → List Kind → Option Kind
  | .not, d, ks => if d.isBits ∧ ks = [d] then some d else none
  | .and, d, ks | .or, d, ks | .xor, d, ks => if d.isBits ∧ ks = [d, d] then some d else none
  | .implies, d, ks => if d = .bool ∧ ks = [d, d] then some .bool else none
  | .ite, d, ks => if ks = [.bool, d, d] then some d else none
  | .eq, d, ks | .neq, d, ks => if ks = [d, d] then some .bool else none
  | .lt, d, ks | .le, d, ks | .gt, d, ks | .ge, d, ks =>
    if (d.isNumeric || d.isFloat) ∧ ks = [d, d] then some .bool else none
  | .add, d, ks | .sub, d, ks | .mul, d, ks | .div, d, ks =>
    if d.isNumeric ∧ ks = [d, d] then some d else none
  | .neg, d, ks => if d.isNumeric ∧ ks = [d] then some d else none
  | .zeroExtend count, .bitVec s w, ks | .signExtend count, .bitVec s w, ks =>
    if ks = [.bitVec s w] then some (.bitVec s (w + count)) else none
  | .extract hi lo, .bitVec s w, ks =>
    if (lo ≤ hi ∧ hi < w) ∧ ks = [.bitVec s w] then some (.unsigned (hi - lo + 1)) else none
  | .testBit i, .bitVec s w, ks => if i < w ∧ ks = [.bitVec s w] then some .bool else none
  | .select, .array key value, ks => if ks = [.array key value, key] then some value else none
  | .umulNoOverflow, .bitVec s w, ks | .smulNoOverflow, .bitVec s w, ks
  | .smulNoUnderflow, .bitVec s w, ks =>
    if ks = [.bitVec s w, .bitVec s w] then some .bool else none
  | _, _, _ => none

/-- The operators with their domains and the kinds of their operands and results. -/
inductive Op.Kinded : Op → Kind → List Kind → Kind → Prop
  | not {d : Kind} (hd : d.isBits) : Kinded .not d [d] d
  | and {d : Kind} (hd : d.isBits) : Kinded .and d [d, d] d
  | or {d : Kind} (hd : d.isBits) : Kinded .or d [d, d] d
  | xor {d : Kind} (hd : d.isBits) : Kinded .xor d [d, d] d
  | implies : Kinded .implies .bool [.bool, .bool] .bool
  | ite (d : Kind) : Kinded .ite d [.bool, d, d] d
  | eq (d : Kind) : Kinded .eq d [d, d] .bool
  | neq (d : Kind) : Kinded .neq d [d, d] .bool
  | lt {d : Kind} (hd : d.isNumeric || d.isFloat) : Kinded .lt d [d, d] .bool
  | le {d : Kind} (hd : d.isNumeric || d.isFloat) : Kinded .le d [d, d] .bool
  | gt {d : Kind} (hd : d.isNumeric || d.isFloat) : Kinded .gt d [d, d] .bool
  | ge {d : Kind} (hd : d.isNumeric || d.isFloat) : Kinded .ge d [d, d] .bool
  | add {d : Kind} (hd : d.isNumeric) : Kinded .add d [d, d] d
  | sub {d : Kind} (hd : d.isNumeric) : Kinded .sub d [d, d] d
  | mul {d : Kind} (hd : d.isNumeric) : Kinded .mul d [d, d] d
  | div {d : Kind} (hd : d.isNumeric) : Kinded .div d [d, d] d
  | neg {d : Kind} (hd : d.isNumeric) : Kinded .neg d [d] d
  | zeroExtend (count : Nat) (s : Bool) (w : Nat) :
      Kinded (.zeroExtend count) (.bitVec s w) [.bitVec s w] (.bitVec s (w + count))
  | signExtend (count : Nat) (s : Bool) (w : Nat) :
      Kinded (.signExtend count) (.bitVec s w) [.bitVec s w] (.bitVec s (w + count))
  | extract {hi lo w : Nat} (s : Bool) (h : lo ≤ hi ∧ hi < w) :
      Kinded (.extract hi lo) (.bitVec s w) [.bitVec s w] (.unsigned (hi - lo + 1))
  | testBit {i w : Nat} (s : Bool) (h : i < w) :
      Kinded (.testBit i) (.bitVec s w) [.bitVec s w] .bool
  | select (key value : Kind) : Kinded .select (.array key value) [.array key value, key] value
  | umulNoOverflow (s : Bool) (w : Nat) :
      Kinded .umulNoOverflow (.bitVec s w) [.bitVec s w, .bitVec s w] .bool
  | smulNoOverflow (s : Bool) (w : Nat) :
      Kinded .smulNoOverflow (.bitVec s w) [.bitVec s w, .bitVec s w] .bool
  | smulNoUnderflow (s : Bool) (w : Nat) :
      Kinded .smulNoUnderflow (.bitVec s w) [.bitVec s w, .bitVec s w] .bool

/-- A kind rule, taken apart: the operands are what the operator asks for. -/
theorem Op.kinded {op : Op} {d k : Kind} {ks : List Kind} (h : op.kind? d ks = some k) :
    op.Kinded d ks k := by
  cases op with
  | apply name | table id | arrayRef id => cases h
  | ite | eq | neq =>
    simp only [kind?] at h
    split_ifs at h with hc
    cases h
    subst hc
    constructor
  | zeroExtend | signExtend | umulNoOverflow | smulNoOverflow | smulNoUnderflow =>
    cases d with
    | bitVec s w =>
      simp only [kind?] at h
      split_ifs at h with hc
      cases h
      subst hc
      constructor
    | _ => cases h
  | extract | testBit =>
    cases d with
    | bitVec s w =>
      simp only [kind?] at h
      split_ifs at h with hc
      cases h
      obtain ⟨hi, rfl⟩ := hc
      constructor
      exact hi
    | _ => cases h
  | select =>
    cases d with
    | array key value =>
      simp only [kind?] at h
      split_ifs at h with hc
      cases h
      subst hc
      constructor
    | _ => cases h
  | implies =>
    simp only [kind?] at h
    split_ifs at h with hc
    cases h
    obtain ⟨rfl, rfl⟩ := hc
    constructor
  | _ =>
    simp only [kind?] at h
    split_ifs at h with hc
    cases h
    obtain ⟨hd, rfl⟩ := hc
    constructor
    exact hd

theorem Kind.eq_bool {k : Kind} (h : k.isBool) : k = .bool := by
  cases k with
  | bool => rfl
  | _ => cases h

theorem Value.isConcrete_of_asBool? {v : Value} {b : Bool} (h : v.asBool? = some b) :
    v.isConcrete = true := by
  cases v with
  | concrete c => rfl
  | symbolic n k owner => cases h

theorem foldBinary_select (c d : Literal) (k : Kind) : foldBinary .select c d k = none := by
  obtain ⟨kind, p⟩ := c
  obtain ⟨kind', p'⟩ := d
  cases p <;> cases p' <;> try rfl
  -- words are left: no operator of words reads an array
  show kind.width?.bind _ = none
  cases kind.width? with
  | none => rfl
  | some w => rfl

namespace Plan

/-- What a plan over `vs` can be, where the rule of the operation assigns `k?` to them. -/
inductive Follows (vs : List Value) (k? : Option Kind) : Plan → Prop
  | kindMismatch (name : String) (k k' : Kind) :
    Follows vs k? (.refuse (.error (.kindMismatch name k k')))
  | invalidOperand (name : String) (k : Kind) :
    Follows vs k? (.refuse (.error (.invalidOperand name k)))
  | violation (v : Violation) : Follows vs k? (.refuse (.violation v))
  | truth (b : Bool) (h : k? = some .bool) : Follows vs k? (.give (.bool b))
  /-- An operand that is known to be a truth value decides a connective. -/
  | decided (b : Bool) {v : Value} {x : Bool} (hv : v ∈ vs) (hx : v.asBool? = some x)
    (h : k? = some v.kind) : Follows vs k? (.give (.bool b))
  | operand {v : Value} (hv : v ∈ vs) (h : k? = some v.kind) : Follows vs k? (.give v)
  | foldedUnary {op : Op} {c d : Literal} {k : Kind} (hc : .concrete c ∈ vs)
    (hall : ∀ v ∈ vs, v.isConcrete) (hk : op.kind? c.kind [c.kind] = some k)
    (hf : foldUnary op c k = some d) (h : k? = some k) : Follows vs k? (.give (.concrete d))
  | foldedBinary {op : Op} {c d e : Literal} {k : Kind} (hc : .concrete c ∈ vs)
    (hd : .concrete d ∈ vs) (hall : ∀ v ∈ vs, v.isConcrete) (he : c.kind = d.kind)
    (hk : op.kind? c.kind [c.kind, d.kind] = some k) (hf : foldBinary op c d k = some e)
    (h : k? = some k) : Follows vs k? (.give (.concrete e))
  /-- All operands but literals are in the node. -/
  | node {op : Op} {domain k : Kind} {us : List Value} (hus : us ⊆ vs)
    (hall : ∀ v ∈ vs, v.isConcrete ∨ v ∈ us) (hk : op.kind? domain (us.map Value.kind) = some k)
    (h : k? = some k) : Follows vs k? (.node op domain us k)

variable {vs : List Value} {a b : Value} {p : Plan} {k? : Option Kind} {k : Kind}

theorem follows_sameKind (name : String) (h : a.kind = b.kind → p.Follows vs k?) :
    (sameKind name a b p).Follows vs k? := by
  unfold sameKind
  split_ifs with hk
  · exact h hk
  · exact .kindMismatch _ _ _

theorem follows_require (name : String) {ok : Bool} (h : ok = true → p.Follows vs k?) :
    (require name a ok p).Follows vs k? := by
  unfold require
  split_ifs with hk
  · exact h hk
  · exact .invalidOperand _ _

theorem follows_wordWidth (name : String) {q : Nat → Plan}
    (h : ∀ s w, a.kind = .bitVec s w → (q w).Follows vs k?) :
    (wordWidth name a q).Follows vs k? := by
  unfold wordWidth
  cases hk : a.kind with
  | bitVec s w => exact h s w hk
  | _ => exact .invalidOperand _ _

/-- The operands that the operator leaves out are literals, so what is folded is literals only. -/
theorem follows_unary {op : Op} (ha : a ∈ vs) (hall : ∀ v ∈ vs, v.isConcrete ∨ v = a)
    (hk : op.kind? a.kind [a.kind] = some k) : (unary op a k).Follows vs (some k) := by
  unfold unary
  rcases hf : Build.foldUnary? op a k with _ | d
  · exact .node (by simpa using ha) (by simpa using hall) hk rfl
  · cases a with
    | concrete c =>
      refine .foldedUnary ha (fun v hv => (hall v hv).elim id ?_) hk hf rfl
      rintro rfl
      rfl
    | symbolic n k' number => cases hf

/-- A node over both operands. -/
theorem follows_pair {op : Op} (domain : Kind)
    (hk : op.kind? domain [a.kind, b.kind] = some k) :
    (node op domain [a, b] k).Follows [a, b] (some k) :=
  .node (List.Subset.refl _) (fun _ => .inr) hk rfl

theorem follows_binary {op : Op} (he : a.kind = b.kind)
    (hk : op.kind? a.kind [a.kind, b.kind] = some k) :
    (binary op a b k).Follows [a, b] (some k) := by
  unfold binary
  rcases hf : Build.foldBinary? op a b k with _ | e
  · exact follows_pair _ hk
  · cases a with
    | concrete c =>
      cases b with
      | concrete d =>
        exact .foldedBinary (by simp) (by simp) (by simp [Value.isConcrete]) he hk hf rfl
      | symbolic n k' number => cases hf
    | symbolic n k' number => cases hf

section Operators

theorem follows_not (ha : a ∈ vs) (hall : ∀ v ∈ vs, v.isConcrete ∨ v = a) :
    (not a).Follows vs (Op.kind? .not a.kind [a.kind]) :=
  follows_require _ fun hbits => by
    have hk : Op.kind? .not a.kind [a.kind] = some a.kind := if_pos ⟨hbits, rfl⟩
    rw [hk]
    exact follows_unary ha hall hk

/-- A connective, given what it is on operands of which one may decide it. -/
theorem follows_connective (op : Op) (name : String) {q : Plan}
    (hop : Op.kind? op a.kind [a.kind, a.kind] = if a.kind.isBits then some a.kind else none)
    (hq : a.kind = b.kind → a.kind.isBits → Op.kind? op a.kind [a.kind, b.kind] = some a.kind →
      q.Follows vs (some a.kind)) :
    (sameKind name a b (bits name a q)).Follows vs (Op.kind? op a.kind [a.kind, b.kind]) :=
  follows_sameKind _ fun he => follows_require _ fun hbits => by
    have hk : Op.kind? op a.kind [a.kind, b.kind] = some a.kind := by
      rw [← he, hop]
      exact if_pos hbits
    rw [hk]
    exact hq he hbits hk

variable (a b)

theorem follows_and : (and a b).Follows [a, b] (Op.kind? .and a.kind [a.kind, b.kind]) := by
  refine follows_connective .and "and" (by simp [Op.kind?]) fun he _ hk => ?_
  split
  · next hx => exact .decided _ (by simp) hx rfl
  · next hx _ => exact .decided _ (by simp) hx (congrArg some he)
  · exact .operand (by simp) (congrArg some he)
  · exact .operand (by simp) rfl
  · exact follows_binary he hk

theorem follows_or : (or a b).Follows [a, b] (Op.kind? .or a.kind [a.kind, b.kind]) := by
  refine follows_connective .or "or" (by simp [Op.kind?]) fun he _ hk => ?_
  split
  · next hx => exact .decided _ (by simp) hx rfl
  · next hx _ => exact .decided _ (by simp) hx (congrArg some he)
  · exact .operand (by simp) (congrArg some he)
  · exact .operand (by simp) rfl
  · exact follows_binary he hk

theorem follows_xor : (xor a b).Follows [a, b] (Op.kind? .xor a.kind [a.kind, b.kind]) := by
  refine follows_connective .xor "xor" (by simp [Op.kind?]) fun he hbits hk => ?_
  have hna : Op.kind? .not a.kind [a.kind] = some a.kind := if_pos ⟨hbits, rfl⟩
  split
  · next hx _ => exact .decided _ (by simp) hx rfl
  · exact .operand (by simp) (congrArg some he)
  · exact .operand (by simp) rfl
  · next hx _ =>
    rw [← hna, he]
    exact follows_not (by simp) (by simp [Value.isConcrete_of_asBool? hx])
  · next hx =>
    rw [← hna]
    exact follows_not (by simp) (by simp [Value.isConcrete_of_asBool? hx])
  · exact follows_binary he hk

theorem follows_implies :
    (implies a b).Follows [a, b] (Op.kind? .implies a.kind [a.kind, b.kind]) :=
  follows_sameKind _ fun he => follows_require _ fun hbool => by
    have hk : Op.kind? .implies a.kind [a.kind, b.kind] = some .bool := by
      rw [← he]
      exact if_pos ⟨Kind.eq_bool hbool, rfl⟩
    rw [hk]
    exact follows_binary he hk

theorem follows_ite (c : Value) :
    (ite c a b).Follows [c, a, b] (Op.kind? .ite a.kind [c.kind, a.kind, b.kind]) :=
  follows_require _ fun hbool => follows_sameKind _ fun he => by
    have hk : Op.kind? .ite a.kind [c.kind, a.kind, b.kind] = some a.kind := by
      rw [Kind.eq_bool hbool, ← he]
      exact if_pos rfl
    rw [hk]
    split
    · exact .operand (by simp) rfl
    · exact .operand (by simp) (congrArg some he)
    · split_ifs
      · exact .operand (by simp) rfl
      · exact .node (List.Subset.refl _) (fun _ => .inr) hk rfl

theorem follows_equality {op : Op} (name : String) (hop : ∀ d, op.kind? d [d, d] = some .bool) :
    (equality op name a b).Follows [a, b] (op.kind? a.kind [a.kind, b.kind]) :=
  follows_sameKind _ fun he => by
    have hk : op.kind? a.kind [a.kind, b.kind] = some .bool := by rw [← he, hop]
    rw [hk]
    exact follows_binary he hk

theorem follows_ordering {op : Op} (name : String)
    (hop : ∀ d, op.kind? d [d, d] = if d.isNumeric || d.isFloat then some .bool else none) :
    (ordering op name a b).Follows [a, b] (op.kind? a.kind [a.kind, b.kind]) :=
  follows_sameKind _ fun he => follows_require _ fun hn => by
    have hk : op.kind? a.kind [a.kind, b.kind] = some .bool := by
      rw [← he, hop]
      exact if_pos hn
    rw [hk]
    exact follows_binary he hk

theorem follows_arith {op : Op} (name : String)
    (hop : ∀ d, op.kind? d [d, d] = if d.isNumeric then some d else none) :
    (arith op name a b).Follows [a, b] (op.kind? a.kind [a.kind, b.kind]) :=
  follows_sameKind _ fun he => follows_require _ fun hn => by
    have hk : op.kind? a.kind [a.kind, b.kind] = some a.kind := by
      rw [← he, hop]
      exact if_pos hn
    rw [hk]
    exact follows_binary he hk

theorem follows_native {op : Op} (name : String)
    (hop : ∀ s w, op.kind? (.bitVec s w) [.bitVec s w, .bitVec s w] = some .bool) :
    (native op name a b).Follows [a, b] (op.kind? a.kind [a.kind, b.kind]) :=
  follows_sameKind _ fun he => follows_wordWidth _ fun s w hw => by
    have hk : op.kind? a.kind [a.kind, b.kind] = some .bool := by rw [← he, hw, hop]
    rw [hk]
    exact follows_binary he hk

theorem follows_neg : (neg a).Follows [a] (Op.kind? .neg a.kind [a.kind]) :=
  follows_require _ fun hn => by
    have hk : Op.kind? .neg a.kind [a.kind] = some a.kind := if_pos ⟨hn, rfl⟩
    rw [hk]
    exact follows_unary (by simp) (by simp) hk

theorem follows_extend {op : Nat → Op} (name : String) (width : Nat)
    (hop : ∀ s w count, Op.kind? (op count) (.bitVec s w) [.bitVec s w] =
      some (.bitVec s (w + count))) :
    (extend op name a width).Follows [a]
      (match a.kind with
        | .bitVec s w => if w ≤ width then some (.bitVec s width) else none
        | _ => none) :=
  follows_wordWidth _ fun s w hw => by
    split_ifs with hlt heq
    · exact .violation _
    · subst heq
      simp only [hw, Nat.le_refl, if_true]
      exact .operand (by simp) (congrArg some hw.symm)
    · have hle : w ≤ width := Nat.not_lt.1 hlt
      have hwidth : a.kind.withWidth width = .bitVec s width := by rw [hw]; cases s <;> rfl
      simp only [hw, hle, if_true]
      rw [← hw, hwidth]
      refine follows_unary (by simp) (by simp) ?_
      rw [hw, hop, Nat.add_sub_cancel' hle]

theorem follows_extract (hi lo : Nat) :
    (extract a hi lo).Follows [a] (Op.kind? (.extract hi lo) a.kind [a.kind]) :=
  follows_wordWidth _ fun s w hw => follows_require _ fun hin => by
    have hin : lo ≤ hi ∧ hi < w := by simpa using hin
    have hk : Op.kind? (.extract hi lo) a.kind [a.kind] = some (.unsigned (hi - lo + 1)) := by
      rw [hw]
      exact if_pos ⟨hin, rfl⟩
    rw [hk]
    split_ifs with hfull
    · obtain ⟨rfl, rfl, hs⟩ := hfull
      refine .operand (by simp) (congrArg some ?_)
      rw [hw] at hs ⊢
      cases s with
      | false => rfl
      | true => cases hs
    · exact follows_unary (by simp) (by simp) hk

theorem follows_testBit (i : Nat) :
    (testBit a i).Follows [a] (Op.kind? (.testBit i) a.kind [a.kind]) :=
  follows_wordWidth _ fun s w hw => follows_require _ fun hi => by
    have hk : Op.kind? (.testBit i) a.kind [a.kind] = some .bool := by
      rw [hw]
      exact if_pos ⟨of_decide_eq_true hi, rfl⟩
    rw [hk]
    exact follows_unary (by simp) (by simp) hk

theorem follows_signBit : (signBit a).Follows [a] (if a.kind.isBitVec then some .bool else none) :=
  follows_wordWidth _ fun s w hw => by
    have hk : (if a.kind.isBitVec then some Kind.bool else none) = some .bool := by
      rw [hw]
      rfl
    rw [hk]
    cases w with
    | zero => exact .truth _ rfl
    | succ w =>
      have hb : Op.kind? (.testBit w) a.kind [a.kind] = some .bool := by
        rw [hw]
        exact if_pos ⟨Nat.lt_succ_self w, rfl⟩
      rw [← hb]
      exact follows_testBit a w

theorem follows_select :
    (select a b).Follows [a, b] (Op.kind? .select a.kind [a.kind, b.kind]) := by
  unfold select
  cases hw : a.kind with
  | array key value =>
    simp only
    split_ifs with hkey
    · have hk : Op.kind? .select a.kind [a.kind, b.kind] = some value := by
        rw [hw, ← hkey]
        exact if_pos rfl
      have hfold : Build.foldBinary? .select a b value = none := by
        cases a with
        | concrete c => cases b <;> first | exact foldBinary_select _ _ _ | rfl
        | symbolic n k number => rfl
      rw [← hw, hk, binary, hfold]
      exact follows_pair _ hk
    · exact .kindMismatch _ _ _
  | _ => exact .invalidOperand _ _

end Operators

end Plan

namespace Primitive

/-- The kind that an operation's rule assigns to the kinds of its operands. -/
def kind? : Primitive → Option Kind
  | .not a => Op.kind? .not a.kind [a.kind]
  | .and a b => Op.kind? .and a.kind [a.kind, b.kind]
  | .or a b => Op.kind? .or a.kind [a.kind, b.kind]
  | .xor a b => Op.kind? .xor a.kind [a.kind, b.kind]
  | .implies a b => Op.kind? .implies a.kind [a.kind, b.kind]
  | .ite c t e => Op.kind? .ite t.kind [c.kind, t.kind, e.kind]
  | .eq a b => Op.kind? .eq a.kind [a.kind, b.kind]
  | .neq a b => Op.kind? .neq a.kind [a.kind, b.kind]
  | .lt a b => Op.kind? .lt a.kind [a.kind, b.kind]
  | .le a b => Op.kind? .le a.kind [a.kind, b.kind]
  | .gt a b => Op.kind? .gt a.kind [a.kind, b.kind]
  | .ge a b => Op.kind? .ge a.kind [a.kind, b.kind]
  | .add a b => Op.kind? .add a.kind [a.kind, b.kind]
  | .sub a b => Op.kind? .sub a.kind [a.kind, b.kind]
  | .mul a b => Op.kind? .mul a.kind [a.kind, b.kind]
  | .div a b => Op.kind? .div a.kind [a.kind, b.kind]
  | .neg a => Op.kind? .neg a.kind [a.kind]
  | .zeroExtend a width | .signExtend a width =>
    match a.kind with
    | .bitVec s w => if w ≤ width then some (.bitVec s width) else none
    | _ => none
  | .extract a hi lo => Op.kind? (.extract hi lo) a.kind [a.kind]
  | .testBit a i => Op.kind? (.testBit i) a.kind [a.kind]
  | .signBit a => if a.kind.isBitVec then some .bool else none
  | .umulNoOverflow a b => Op.kind? .umulNoOverflow a.kind [a.kind, b.kind]
  | .smulNoOverflow a b => Op.kind? .smulNoOverflow a.kind [a.kind, b.kind]
  | .smulNoUnderflow a b => Op.kind? .smulNoUnderflow a.kind [a.kind, b.kind]
  | .select a i => Op.kind? .select a.kind [a.kind, i.kind]

/-- All that an operation on values can do with its operands. -/
theorem plan_follows (p : Primitive) : p.plan.Follows p.operands p.kind? := by
  cases p with
  | not a => exact Plan.follows_not (by simp [operands]) (by simp [operands])
  | and a b => exact Plan.follows_and a b
  | or a b => exact Plan.follows_or a b
  | xor a b => exact Plan.follows_xor a b
  | implies a b => exact Plan.follows_implies a b
  | ite c t e => exact Plan.follows_ite t e c
  | eq a b | neq a b =>
    rw [kind?]
    exact Plan.follows_equality a b _ fun d => if_pos rfl
  | lt a b | le a b | gt a b | ge a b =>
    rw [kind?]
    exact Plan.follows_ordering a b _ fun d => by simp [Op.kind?]
  | add a b | sub a b | mul a b | div a b =>
    rw [kind?]
    exact Plan.follows_arith a b _ fun d => by simp [Op.kind?]
  | neg a => exact Plan.follows_neg a
  | zeroExtend a width | signExtend a width =>
    exact Plan.follows_extend a _ width fun s w count => if_pos rfl
  | extract a hi lo => exact Plan.follows_extract a hi lo
  | testBit a i => exact Plan.follows_testBit a i
  | signBit a => exact Plan.follows_signBit a
  | umulNoOverflow a b | smulNoOverflow a b | smulNoUnderflow a b =>
    rw [kind?]
    exact Plan.follows_native a b _ fun s w => if_pos rfl
  | select a i => exact Plan.follows_select a i

end Primitive

/-- The kind of a node of the operator. That of an application, a table or an array depends on what
is declared. -/
def Op.resultKind? (op : Op) (domain : Kind) : Option Kind :=
  match op, domain with
  | .not, d | .and, d | .or, d | .xor, d | .ite, d => some d
  | .add, d | .sub, d | .mul, d | .div, d | .neg, d => some d
  | .zeroExtend n, .bitVec s w | .signExtend n, .bitVec s w => some (.bitVec s (w + n))
  | .extract hi lo, _ => some (.unsigned (hi - lo + 1))
  | .select, .array _ value => some value
  | .zeroExtend _, _ | .signExtend _, _ | .select, _ => none
  | .apply _, _ | .table _, _ | .arrayRef _, _ => none
  | _, _ => some .bool

theorem Op.Kinded.resultKind? {op : Op} {d k : Kind} {ks : List Kind} (h : op.Kinded d ks k) :
    op.resultKind? d = some k := by
  cases h <;> rfl

namespace Plan

/-- The complaints and nodes of an operation on values. -/
inductive Regular : Plan → Prop
  | give (v : Value) : Regular (.give v)
  | kindMismatch (name : String) (k k' : Kind) :
    Regular (.refuse (.error (.kindMismatch name k k')))
  | invalidOperand (name : String) (k : Kind) : Regular (.refuse (.error (.invalidOperand name k)))
  | violation (v : Violation) : Regular (.refuse (.violation v))
  | node {op : Op} {domain k : Kind} (vs : List Value) (h : op.resultKind? domain = some k) :
    Regular (.node op domain vs k)

theorem Follows.regular {vs : List Value} {k? : Option Kind} {p : Plan} (h : p.Follows vs k?) :
    p.Regular := by
  cases h with
  | kindMismatch name k k' => exact .kindMismatch name k k'
  | invalidOperand name k => exact .invalidOperand name k
  | violation v => exact .violation v
  | truth | decided | operand | foldedUnary | foldedBinary => exact .give _
  | node _ _ hk => exact .node _ (Op.kinded hk).resultKind?

end Plan

theorem Primitive.plan_regular (p : Primitive) : p.plan.Regular := p.plan_follows.regular

end SmtLowering
