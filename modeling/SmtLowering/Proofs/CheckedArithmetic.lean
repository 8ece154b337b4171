import SmtLowering.Overflow.Checked
import SmtLowering.Proofs.Composites

/-!
# Checked arithmetic

A checked operation gives the wrapped result and asserts that the exact one is in the range of its
kind (`Checked.InRange`). It is a composite step that says whether this is so, an assertion, and one
more operation (`Checked.build_eq`); of these the assertion alone records anything, and at most one
node (`View.asserts`). Put together, the conjunction of what a call asserts is that the exact result
is in range (`World.checked_in_range`).
-/

namespace SmtLowering

/-- An operation of checked arithmetic with its operands. -/
inductive Checked (α : Type)
  | binary (op : Overflow.ArithOp) (a b : α)
  | neg (a : α)

namespace Checked

section Operands

variable {α β : Type}

def operands : Checked α → List α
  | .binary _ a b => [a, b]
  | .neg a => [a]

def map (f : α → β) : Checked α → Checked β
  | .binary op a b => .binary op (f a) (f b)
  | .neg a => .neg (f a)

end Operands

section Steps

def build : Checked Value → Build Value
  | .binary op a b => Overflow.checked op a b
  | .neg a => Overflow.checkedNeg a

def label : Checked Value → String
  | .binary op a _ => s!"{a.kind} {op.name} does not overflow"
  | .neg a => s!"{a.kind} neg does not overflow"

/-- The conditions that the result leaves the range of the operands' kind. -/
def conditions : Checked Value → Build Overflow
  | .binary op a b => Overflow.ofOp op a b
  | .neg a => Overflow.ofNeg a

/-- That the result stays in range. -/
def obligation (c : Checked Value) : Build Value := do
  let o ← c.conditions
  let bad ← o.either
  Build.not bad

/-- The operation without the check. -/
def unchecked : Checked Value → Primitive
  | .binary .add a b => .add a b
  | .binary .sub a b => .sub a b
  | .binary .mul a b => .mul a b
  | .binary .div a b => .div a b
  | .neg a => .neg a

theorem build_eq (c : Checked Value) :
    c.build = (do
      let ok ← c.obligation
      Build.assert c.label ok
      c.unchecked.build) := by
  unfold obligation
  cases c with
  | binary op a b =>
    simp only [build, Overflow.checked, Overflow.obligation, bind_assoc]
    cases op <;> rfl
  | neg a =>
    simp only [build, Overflow.checkedNeg, Overflow.obligation, bind_assoc]
    rfl

open Build in
theorem composite_conditions (c : Checked Value) : Composite c.conditions := by
  cases c with
  | binary op a b =>
    simp only [conditions, Overflow.ofOp]
    cases a.kind.isSigned with
    | false =>
      cases op with
      | add => exact (RangeCheck.uadd a b).composite
      | sub => exact (RangeCheck.usub a b).composite
      | mul => exact (RangeCheck.umul a b).composite
      | div => exact (RangeCheck.udiv a b).composite
    | true =>
      cases op with
      | add => exact (RangeCheck.sadd a b).composite
      | sub => exact (RangeCheck.ssub a b).composite
      | mul => exact (RangeCheck.smul a b).composite
      | div => exact (RangeCheck.sdiv a b).composite
  | neg a =>
    simp only [conditions, Overflow.ofNeg]
    split_ifs
    · exact (RangeCheck.sneg a).composite
    · exact (RangeCheck.uneg a).composite

open Build in
theorem composite_obligation (c : Checked Value) : Composite c.obligation :=
  c.composite_conditions.bind fun o => .next (.or o.underflow o.overflow) fun bad =>
    .operation (.not bad)

end Steps

section Words

variable (signed : Bool) {n : Nat}

/-- The result of an operation on the readings of words. -/
def exactResult : Checked (BitVec n) → Int
  | .binary .add x y => reading signed x + reading signed y
  | .binary .sub x y => reading signed x - reading signed y
  | .binary .mul x y => reading signed x * reading signed y
  | .binary .div x y => (reading signed x).tdiv (reading signed y)
  | .neg x => -reading signed x

/-- Division by zero and negation of unsigned words count as in range. -/
def exempt : Checked (BitVec n) → Bool
  | .binary .div _ y => y == 0#n
  | .neg _ => !signed
  | _ => false

def InRange (c : Checked (BitVec n)) : Prop :=
  c.exempt signed = true ∨
    leastInt signed n ≤ c.exactResult signed ∧ c.exactResult signed ≤ greatestInt signed n

instance (c : Checked (BitVec n)) : Decidable (c.InRange signed) :=
  inferInstanceAs (Decidable (_ ∨ _ ∧ _))

/-- The exact result, wrapped. A quotient by zero is all ones, or one below a negative dividend. -/
def result (c : Checked (BitVec n)) : BitVec n :=
  match c with
  | .binary .div x y =>
    if y = 0#n then if reading signed x < 0 then 1#n else BitVec.allOnes n
    else BitVec.ofInt n (c.exactResult signed)
  | _ => BitVec.ofInt n (c.exactResult signed)

variable (x y : BitVec n)

theorem result_add : result signed (.binary .add x y) = x + y := by
  simp only [result, exactResult, BitVec.ofInt_add, ofInt_reading]

theorem result_sub : result signed (.binary .sub x y) = x - y := by
  simp only [result, exactResult, Int.sub_eq_add_neg, BitVec.ofInt_add, BitVec.ofInt_neg,
    ofInt_reading, BitVec.sub_eq_add_neg]

theorem result_mul : result signed (.binary .mul x y) = x * y := by
  simp only [result, exactResult, BitVec.ofInt_mul, ofInt_reading]

theorem result_neg : result signed (.neg x) = -x := by
  simp only [result, exactResult, BitVec.ofInt_neg, ofInt_reading]

theorem result_div :
    result signed (.binary .div x y) = if signed then x.smtSDiv y else x.smtUDiv y := by
  have hneg : signed = true ∧ reading signed x < 0 ↔ reading signed x < 0 := by
    cases signed with
    | false => simp
    | true => simp
  rw [← ofInt_wordDiv]
  simp only [result, exactResult, wordDiv, modulus_eq, reading_eq_zero, hneg]
  split_ifs
  · rw [BitVec.ofInt_ofNat]
  · exact (ofInt_allOnes n).symm
  · rfl

end Words

section Ranges

variable {signed : Bool} {n : Nat} {x y : BitVec n}

/-- What is not exempt is in range unless its exact result is on either side. -/
theorem sides_iff {c : Checked (BitVec n)} (h : c.exempt signed = false) :
    (decide (c.exactResult signed < leastInt signed n) ||
      decide (greatestInt signed n < c.exactResult signed)) = true ↔ ¬c.InRange signed := by
  rw [Bool.or_eq_true, decide_eq_true_iff, decide_eq_true_iff, InRange, h, not_or, not_and_or,
    not_le, not_le]
  simp only [Bool.false_eq_true, not_false_eq_true, true_and]

/-- An unsigned quotient is no larger than its dividend. -/
theorem inRange_udiv : InRange false (.binary .div x y) := by
  refine .inr ?_
  have hx := x.isLt
  have hle : x.toNat / y.toNat ≤ x.toNat := Nat.div_le_self _ _
  simp only [exactResult, reading_unsigned, ← Int.ofNat_tdiv, leastInt_unsigned,
    greatestInt_unsigned]
  refine ⟨Int.natCast_nonneg _, ?_⟩
  zify at hx
  omega

/-- A signed quotient is in range, but for that of the least word by minus one. -/
theorem inRange_sdiv_iff : InRange true (.binary .div x y) ↔
    ¬(0 < n ∧ x.toInt = leastInt true n ∧ y.toInt = -1) := by
  rcases n with - | w
  · have hy : y = 0#0 := BitVec.eq_nil y
    simp [InRange, exempt, hy]
  · have hpos : (0 : Int) < 2 ^ w := by positivity
    by_cases hcorner : x.toInt = -2 ^ w ∧ y.toInt = -1
    · have hy : y ≠ 0#(w + 1) := by
        rintro rfl
        simp at hcorner
      simp [InRange, exempt, exactResult, hy, hcorner]
    · have hne : x ≠ BitVec.intMin (w + 1) ∨ y ≠ -1#(w + 1) := by
        by_contra hboth
        obtain ⟨rfl, rfl⟩ : x = BitVec.intMin (w + 1) ∧ y = -1#(w + 1) := by simpa using hboth
        refine hcorner ⟨?_, (View.eq_neg_one_iff (Nat.succ_pos w)).1 rfl⟩
        rw [BitVec.toInt_intMin, Nat.add_sub_cancel,
          Nat.mod_eq_of_lt (Nat.pow_lt_pow_succ Nat.one_lt_two)]
        norm_cast
      -- Any other quotient is the reading of a word, and bounded as such.
      have hquotient := toInt_bounds (x.sdiv y)
      rw [BitVec.toInt_sdiv_of_ne_or_ne x y hne] at hquotient
      have hin : InRange true (.binary .div x y) := by
        refine .inr ?_
        simp only [exactResult, reading_signed, leastInt_signed, greatestInt_signed]
        omega
      rw [leastInt_signed]
      exact iff_of_true hin fun h => hcorner h.2

/-- The negation of a signed word is in range, but for that of the least. -/
theorem inRange_sneg_iff : InRange true (.neg x) ↔ ¬(0 < n ∧ x.toInt = leastInt true n) := by
  rcases n with - | w
  · simp [InRange, exempt, exactResult, toInt_zero_width, leastInt, greatestInt]
  · have hx := toInt_bounds x
    simp only [InRange, exempt, exactResult, reading_signed, leastInt_signed, greatestInt_signed,
      Bool.not_true, Bool.false_eq_true, false_or, Nat.succ_pos, true_and]
    omega

end Ranges

section Specifications

variable {U : Type} {V : View U} {s : Scope} {signed : Bool} {n : Nat} {c : Checked Value}
  {f : Value → BitVec n}

/-- The kind of a word says how it is read. -/
theorem isSigned_of_word {a : Value} {x : BitVec n} (ha : V.Word s a signed x) :
    a.kind.isSigned = signed := by
  rw [ha.kind]
  cases signed <;> rfl

/-- One of the two conditions holds unless the exact result is in range. -/
theorem gives_conditions (h : s.Arena) (hc : ∀ v ∈ c.operands, V.Word s v signed (f v)) :
    ∃ p q, ((p || q) = true ↔ ¬(c.map f).InRange signed) ∧
      V.Gives c.conditions s (V.Reports p q) := by
  cases c with
  | binary op a b =>
    have ha := hc a (by simp [operands])
    have hb := hc b (by simp [operands])
    simp only [conditions, Overflow.ofOp, isSigned_of_word ha, map]
    cases signed with
    | false =>
      cases op with
      | add =>
        have hgives := View.gives_uadd h ha hb
        rw [Int.natCast_add] at hgives
        exact ⟨_, _, sides_iff rfl, hgives⟩
      | sub => exact ⟨_, _, sides_iff rfl, View.gives_usub h ha hb⟩
      | mul =>
        have hgives := View.gives_umul h ha hb
        rw [Int.natCast_mul] at hgives
        exact ⟨_, _, sides_iff rfl, hgives⟩
      | div => exact ⟨_, _, by simp [inRange_udiv], View.gives_udiv h ha hb⟩
    | true =>
      cases op with
      | add => exact ⟨_, _, sides_iff rfl, View.gives_sadd h ha hb⟩
      | sub => exact ⟨_, _, sides_iff rfl, View.gives_ssub h ha hb⟩
      | mul => exact ⟨_, _, sides_iff rfl, View.gives_smul h ha hb⟩
      | div =>
        refine ⟨_, _, ?_, View.gives_sdiv h ha hb⟩
        rw [inRange_sdiv_iff, not_not]
        simp only [Bool.false_or, Bool.and_eq_true, bne_iff_ne, decide_eq_true_iff,
          Nat.pos_iff_ne_zero, View.eq_leastWord_iff]
        refine and_congr_right fun hn => and_congr_right fun _ => ?_
        exact View.eq_neg_one_iff (Nat.pos_of_ne_zero hn)
  | neg a =>
    have ha := hc a (by simp [operands])
    simp only [conditions, Overflow.ofNeg, isSigned_of_word ha, map]
    cases signed with
    | false => exact ⟨_, _, by simp [InRange, exempt], View.gives_uneg h ha⟩
    | true =>
      refine ⟨_, _, ?_, View.gives_sneg h ha⟩
      rw [inRange_sneg_iff, not_not]
      simp only [Bool.false_or, Bool.and_eq_true, bne_iff_ne, decide_eq_true_iff,
        Nat.pos_iff_ne_zero, View.eq_leastWord_iff]

theorem gives_obligation (h : s.Arena) (hc : ∀ v ∈ c.operands, V.Word s v signed (f v)) :
    V.Gives c.obligation s fun ok t => V.Truth t ok (decide ((c.map f).InRange signed)) := by
  obtain ⟨p, q, hpq, hgives⟩ := gives_conditions h hc
  refine hgives.bind fun o t l ⟨hu, ho⟩ => ?_
  refine (View.gives_or l.after hu ho).bind fun bad u l' hbad => ?_
  have hok := View.gives_not l'.after hbad
  have hrange : (!(p || q)) = decide ((c.map f).InRange signed) := by
    rw [Bool.eq_iff_iff, Bool.not_eq_true', ← Bool.not_eq_true, hpq, not_not, decide_eq_true_iff]
  rwa [hrange] at hok

theorem gives_unchecked (h : s.Arena) (hc : ∀ v ∈ c.operands, V.Word s v signed (f v)) :
    V.Gives c.unchecked.build s fun v t => V.Word t v signed ((c.map f).result signed) := by
  cases c with
  | binary op a b =>
    have ha := hc a (by simp [operands])
    have hb := hc b (by simp [operands])
    cases op with
    | add =>
      rw [map, result_add]
      exact View.gives_add h ha hb
    | sub =>
      rw [map, result_sub]
      exact View.gives_sub h ha hb
    | mul =>
      rw [map, result_mul]
      exact View.gives_mul h ha hb
    | div =>
      rw [map, result_div]
      exact View.gives_div h ha hb
  | neg a =>
    rw [map, result_neg]
    exact View.gives_neg h (hc a (by simp [operands]))

end Specifications

end Checked

namespace Scope

variable {s : Scope}

/-- The scope with further assertions. -/
def withAssertions (s : Scope) (new : List Labelled) : Scope :=
  { s with assertions := s.assertions ++ new }

@[simp]
theorem withAssertions_nil (s : Scope) : s.withAssertions [] = s := by
  simp [withAssertions]

theorem withAssertions_grows (s : Scope) (new : List Labelled) : s.Grows (s.withAssertions new) :=
  { Grows.refl s with assertions := List.prefix_append _ _ }

/-- The reserved node of falsity is the node of its literal. -/
theorem Arena.materialize_false (h : s.Arena) :
    outcome (Build.materialize (.bool false)) s = (.ok .falsity, s) := by
  show (Except.ok (s.constant (.bool false)).1, (s.constant (.bool false)).2) = _
  rw [constant_of_lookup ((h.constIds_iff _ _).2 h.falsity)]

end Scope

namespace View

variable {U : Type} {V : View U} {s t : Scope}

/-- What an obligation of a truth value appends to the assertions: at most one, under its label and
of this truth value, and none only if that is true. -/
structure Obliges (V : View U) (t : Scope) (label : String) (x : Bool) (new : List Labelled) :
    Prop where
  length_le : new.length ≤ 1
  label_eq : ∀ l ∈ new, l.label = label
  value_eq : ∀ l ∈ new, t.graph.value V.interp V.inputs l.node = some (.bool x)
  eq_true : new = [] → x = true

theorem Obliges.later {label : String} {x : Bool} {new : List Labelled}
    (h : V.Obliges s label x new) (l : s.Later t) : V.Obliges t label x new where
  length_le := h.length_le
  label_eq := h.label_eq
  value_eq a ha := by
    have hv := h.value_eq a ha
    have hlt : a.node < s.nodeCount := by
      by_contra hno
      rw [l.before.value_eq_none (Nat.not_lt.1 hno)] at hv
      cases hv
    rw [l.grows.value l.before l.after hlt, hv]
  eq_true := h.eq_true

/-- The conjunction of what is appended is the truth value. -/
theorem Obliges.all_iff {label : String} {x : Bool} {new : List Labelled}
    (h : V.Obliges t label x new) :
    (∀ l ∈ new, t.graph.value V.interp V.inputs l.node = some (.bool true)) ↔ x = true := by
  constructor
  · intro hall
    cases new with
    | nil => exact h.eq_true rfl
    | cons l new =>
      have hl := h.value_eq l List.mem_cons_self
      rw [hall l List.mem_cons_self] at hl
      cases hl
      rfl
  · rintro rfl l hl
    exact h.value_eq l hl

/-- Asserting a truth value makes at most a constant, and an assertion of it. A literal needs no
node, as both truth values have theirs. -/
theorem asserts (h : s.Arena) (label : String) {ok : Value} {x : Bool} (hok : V.Truth s ok x) :
    ∃ t new, outcome (Build.assert label ok) s = (.ok (), t) ∧ s.Later t ∧
      t = (s.withNodesOf t).withAssertions new ∧ V.Obliges t label x new ∧
      (V.literal → t = s.withAssertions (if x then [] else [⟨label, .falsity⟩])) := by
  have hkind : ok.kind.isBool = true := by
    rw [hok.kind]
    rfl
  unfold Build.assert Build.require
  rw [if_pos hkind, pure_bind]
  by_cases htrue : ok.asBool? = some true
  · obtain rfl : true = x := hok.of_asBool? htrue
    rw [if_pos htrue]
    have hnone : V.Obliges s label true [] := ⟨Nat.zero_le 1, by simp, by simp, fun _ => rfl⟩
    exact ⟨s, [], rfl, .refl h, s.withAssertions_nil.symm, hnone,
      fun _ => s.withAssertions_nil.symm⟩
  · rw [if_neg htrue]
    obtain ⟨n, t, ho, hg, ht, hn⟩ := gives_materialize h hok.value
    have hframe := Build.Composite.relates_materialize Scope.nodeRelation_withNodesOf ok s
    rw [ho] at hframe
    refine ⟨t.withAssertions [⟨label, n⟩], [⟨label, n⟩], ?_,
      ⟨hg.trans (t.withAssertions_grows _), h, ht.artifacts _ _ _ _ _ _ _⟩,
      congrArg (·.withAssertions [⟨label, n⟩]) hframe, ⟨le_rfl, by simp, ?_, by simp⟩, fun hl => ?_⟩
    · rw [Build.labelled, bind_assoc, outcome_bind_ok ho]
      rfl
    · intro l hl
      obtain rfl := List.mem_singleton.1 hl
      exact (ht.value_nodeOf hn).trans (hg.valueOf h ht hok.value)
    · obtain rfl : ok = .bool x := hok.eq_bool hl
      -- A true literal was dropped above.
      obtain rfl : x = false := by
        cases x with
        | false => rfl
        | true => exact absurd rfl htrue
      rw [h.materialize_false] at ho
      cases ho
      rfl

/-- The three parts of a checked operation, one after the other. -/
theorem runs_checked {signed : Bool} {n : Nat} {c : Checked Value} {f : Value → BitVec n}
    (h : s.Arena) (hc : ∀ v ∈ c.operands, V.Word s v signed (f v)) :
    ∃ v t new, outcome c.build s = (.ok v, t) ∧ V.Word t v signed ((c.map f).result signed) ∧
      t = (s.withNodesOf t).withAssertions new ∧
      V.Obliges t c.label (decide ((c.map f).InRange signed)) new ∧
      (V.literal →
        t = s.withAssertions (if (c.map f).InRange signed then [] else [⟨c.label, .falsity⟩])) := by
  obtain ⟨ok, t₁, ho₁, l₁, hsame₁, hok⟩ := Checked.gives_obligation h hc
  obtain ⟨t₂, new, ho₂, l₂, hnew, hobliges, hliteral⟩ := asserts l₁.after c.label hok
  have hc₂ : ∀ v ∈ c.operands, V.Word t₂ v signed (f v) :=
    fun v hv => (hc v hv).later (l₁.trans l₂)
  obtain ⟨v, t₃, ho₃, l₃, hsame₃, hv⟩ := Checked.gives_unchecked l₂.after hc₂
  have hframe₁ : t₁ = s.withNodesOf t₁ := c.composite_obligation.frame ho₁
  have hframe₃ : t₃ = t₂.withNodesOf t₃ := (Build.Composite.operation c.unchecked).frame ho₃
  refine ⟨v, t₃, new, ?_, hv, ?_, hobliges.later l₃, fun hl => ?_⟩
  · rw [c.build_eq, outcome_bind_ok ho₁, outcome_bind_ok ho₂, ho₃]
  · calc t₃ = t₂.withNodesOf t₃ := hframe₃
      _ = (t₁.withNodesOf t₃).withAssertions new := congrArg (·.withNodesOf t₃) hnew
      _ = (s.withNodesOf t₃).withAssertions new :=
        congrArg (fun t => (t.withNodesOf t₃).withAssertions new) hframe₁
  · rw [hsame₃ hl, hliteral hl, hsame₁ hl]
    simp only [decide_eq_true_eq]

end View

namespace World

variable {U : Type} (I : Interpretation U) (ρ : NodeId → Datum U)

/-- A checked operation on words, literals or not, gives the wrapped result, and what it asserts is
that the exact one is in range: at most one assertion under its label, and beside it only nodes. On
literals nothing is asserted in range, the reserved node of falsity else, and no node is made. -/
theorem checked_in_range {w : World} (hw : w.Reachable) {s : Scope} (hs : s ∈ w.scopes)
    {signed : Bool} {n : Nat} {c : Checked Value} {f : Value → BitVec n}
    (hc : ∀ v ∈ c.operands, v.WellFormed ∧ v.kind = .bitVec signed n ∧
      s.valueOf I ρ v = some (.word (f v))) :
    ∃ v t new, outcome c.build s = (.ok v, t) ∧ v.kind = .bitVec signed n ∧
      t.valueOf I ρ v = some (.word ((c.map f).result signed)) ∧
      t = (s.withNodesOf t).withAssertions new ∧ new.length ≤ 1 ∧
      (∀ l ∈ new, l.label = c.label ∧ ∃ b, t.graph.value I ρ l.node = some (.bool b)) ∧
      ((∀ l ∈ new, t.graph.value I ρ l.node = some (.bool true)) ↔ (c.map f).InRange signed) ∧
      ((∀ v ∈ c.operands, v.isConcrete = true) →
        t = s.withAssertions (if (c.map f).InRange signed then [] else [⟨c.label, .falsity⟩])) := by
  -- Only literals count if all operands are: one run serves them and the others.
  let V : View U := ⟨I, ρ, ∀ v ∈ c.operands, v.isConcrete = true⟩
  have hwords : ∀ v ∈ c.operands, V.Word s v signed (f v) := by
    intro v hv
    obtain ⟨hwell, hkind, hvalue⟩ := hc v hv
    exact ⟨hkind, hvalue, hwell, fun hl => hl v hv⟩
  obtain ⟨v, t, new, ho, hv, ht, hobliges, hliteral⟩ := View.runs_checked (hw.arena hs) hwords
  have hall := hobliges.all_iff
  rw [decide_eq_true_iff] at hall
  refine ⟨v, t, new, ho, hv.kind, hv.value, ht, hobliges.length_le, fun l hl => ?_, hall, hliteral⟩
  exact ⟨hobliges.label_eq l hl, _, hobliges.value_eq l hl⟩

/-- The input, which is 100, and a literal: their sum wraps, and one assertion says that it does. -/
theorem checked_in_range_input :
    ∃ v t l, outcome (Overflow.checked .add (.symbolic 2 (.signed 8) 0)
          (.concrete (.word true 8 100))) nativeInput.scopes[0] = (.ok v, t) ∧
      t.valueOf plainInterpretation (fun _ => .word 100#8) v = some (.word (-56#8)) ∧
      t.assertions = [l] ∧
      t.graph.value plainInterpretation (fun _ => .word 100#8) l.node = some (.bool false) := by
  have hs : nativeInput.scopes[0] ∈ nativeInput.scopes := List.getElem_mem _
  let c : Checked Value := .binary .add (.symbolic 2 (.signed 8) 0) (.concrete (.word true 8 100))
  have hinput : 2 ∈ nativeInput.scopes[0].inputIds := by decide
  have hc : ∀ v ∈ c.operands, v.WellFormed ∧ v.kind = .bitVec true 8 ∧
      nativeInput.scopes[0].valueOf plainInterpretation (fun _ => .word 100#8) v =
        some (.word 100#8) := by
    intro v hv
    rcases List.mem_pair.1 hv with rfl | rfl
    · exact ⟨trivial, rfl, (nativeInput_reachable.arena hs).valueOf_input hinput rfl⟩
    · exact ⟨Literal.word_wellFormed true 8 100, rfl, plainInterpretation.literal_word true 8 100⟩
  obtain ⟨v, t, new, ho, -, hv, ht, hlength, hlabels, hall, -⟩ :=
    checked_in_range plainInterpretation (fun _ => .word 100#8) nativeInput_reachable hs hc
  have hout : ¬(c.map fun _ => 100#8).InRange true := by decide
  have hassertions : t.assertions = new := congrArg Scope.assertions ht
  obtain ⟨l, rfl⟩ : ∃ l, new = [l] := by
    rw [← List.length_eq_one_iff]
    refine le_antisymm hlength (List.length_pos_iff.2 ?_)
    rintro rfl
    exact hout (hall.1 (by simp))
  obtain ⟨-, b, hb⟩ := hlabels l List.mem_cons_self
  obtain rfl : b = false := by
    cases b with
    | false => rfl
    | true => exact absurd (hall.1 (by simpa using hb)) hout
  exact ⟨v, t, l, ho, hv, hassertions, hb⟩

end World

end SmtLowering
