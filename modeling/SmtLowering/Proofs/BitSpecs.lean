import SmtLowering.Proofs.Meaning

/-!
# Operations on truth values and words

What each operation on truth values and words computes (`View.gives_not` and on). A literal result
comes from folding, which is total on these kinds; a node has the value of its operator.
-/

namespace SmtLowering

theorem Kind.withWidth_bitVec (signed : Bool) (n w : Nat) :
    (Kind.bitVec signed n).withWidth w = .bitVec signed w := by
  cases signed <;> rfl

namespace View

variable {U : Type} {V : View U} {s : Scope} {a b : Value} {op : Op} {k k' : Kind}

section Plans

theorem means_unary {x d : Datum U} (ha : V.Denotes s a k x) (hb : k.isBits = true)
    (hk : op.kind? k [k] = some k') (hd : x.unary op k = some d) :
    V.Means s k' d (Plan.unary op a k') := by
  obtain ⟨rfl, hv, hw, hl⟩ := ha
  unfold Plan.unary
  rcases hf : Build.foldUnary? op a k' with _ | c
  · refine ⟨fun hlit => ?_, rfl, [x], .cons hv .nil, (denote_unary _ hk).trans hd⟩
    cases a with
    | concrete c =>
      have htotal := foldUnary_isSome hw hk
      rw [show foldUnary op c k' = none from hf] at htotal
      cases htotal
    | symbolic n k number => cases hl hlit
  · cases a with
    | concrete c' =>
      obtain ⟨hc, rfl⟩ := foldUnary_typed hw hk hf
      exact ⟨rfl, (foldUnary_value V.interp hw hk hf hv).trans hd, hc, fun _ => rfl⟩
    | symbolic n k number => cases hf

theorem not_zero_of_isBits {c : Literal} (hb : c.kind.isBits = true) :
    c ≠ .int 0 ∧ c ≠ .real 0 := by
  constructor <;> rintro rfl <;> cases hb

theorem isFloat_of_isBits (hb : k.isBits = true) : k.isFloat = false := by
  cases k <;> first | rfl | cases hb

theorem means_binary {x y d : Datum U} (ha : V.Denotes s a k x) (hb : V.Denotes s b k y)
    (hbits : k.isBits = true) (hk : op.kind? k [k, k] = some k')
    (hd : V.interp.binary op k x y = some d) : V.Means s k' d (Plan.binary op a b k') := by
  obtain ⟨rfl, hv, hw, hl⟩ := ha
  obtain ⟨he, hv', hw', hl'⟩ := hb
  have hk' : op.kind? a.kind [a.kind, b.kind] = some k' := by rw [he, hk]
  unfold Plan.binary
  rcases hf : Build.foldBinary? op a b k' with _ | c
  · refine ⟨fun hlit => ?_, rfl, [x, y], .cons hv (.cons hv' .nil), (denote_binary _ hk).trans hd⟩
    cases a with
    | concrete c =>
      cases b with
      | concrete c' =>
        have hbits' : c'.kind.isBits = true := (congrArg Kind.isBits he).trans hbits
        have htotal := foldBinary_isSome hw hw' he.symm hk' fun _ => not_zero_of_isBits hbits'
        rw [show foldBinary op c c' k' = none from hf] at htotal
        cases htotal
      | symbolic n k number => cases hl' hlit
    | symbolic n k number => cases hl hlit
  · cases a with
    | concrete c' =>
      cases b with
      | concrete c'' =>
        obtain ⟨hc, rfl⟩ := foldBinary_typed hw hw' he.symm hk' hf
        have hf' := foldBinary_value V.interp hw hw' he.symm (isFloat_of_isBits hbits) hk' hf hv hv'
        exact ⟨rfl, hf'.trans hd, hc, fun _ => rfl⟩
      | symbolic n k number => cases hf
    | symbolic n k number => cases hf

end Plans

section Checks

variable {d : Datum U} {p : Plan}

theorem means_sameKind (op : String) (he : a.kind = b.kind) (hp : V.Means s k d p) :
    V.Means s k d (Plan.sameKind op a b p) := by
  rw [Plan.sameKind, if_pos he]
  exact hp

theorem means_require (op : String) {ok : Bool} (hok : ok = true) (hp : V.Means s k d p) :
    V.Means s k d (Plan.require op a ok p) := by
  rw [Plan.require, if_pos hok]
  exact hp

theorem means_bits (op : String) (ha : a.kind = .bool) (hp : V.Means s k d p) :
    V.Means s k d (Plan.bits op a p) := by
  refine means_require op ?_ hp
  rw [ha]
  rfl

theorem means_wordWidth (op : String) {signed : Bool} {n : Nat} {q : Nat → Plan}
    (ha : a.kind = .bitVec signed n) (hq : V.Means s k d (q n)) :
    V.Means s k d (Plan.wordWidth op a q) := by
  rw [Plan.wordWidth, ha]
  exact hq

theorem gives_primitive (h : s.Arena) (p : Primitive) (hp : V.Means s k d p.plan) :
    V.Gives p.build s fun v t => V.Denotes t v k d := by
  rw [p.build_eq]
  exact gives_exec h hp

end Checks

section Connectives

variable {x y : Bool}

theorem means_not (ha : V.Truth s a x) : V.Means s .bool (.bool !x) (Plan.not a) := by
  unfold Plan.not
  rw [ha.kind]
  exact means_bits _ ha.kind (means_unary ha rfl rfl rfl)

theorem means_and (ha : V.Truth s a x) (hb : V.Truth s b y) :
    V.Means s .bool (.bool (x && y)) (Plan.and a b) := by
  refine means_sameKind _ (ha.kind.trans hb.kind.symm) (means_bits _ ha.kind ?_)
  rcases hx : a.asBool? with _ | x'
  · rcases hy : b.asBool? with _ | y'
    · simp only [ha.kind]
      exact means_binary ha hb rfl rfl rfl
    · obtain rfl := hb.of_asBool? hy
      cases y' with
      | false =>
        rw [Bool.and_false]
        exact truth_literal V s false
      | true =>
        rw [Bool.and_true]
        exact ha
  · obtain rfl := ha.of_asBool? hx
    cases x' with
    | false => exact truth_literal V s false
    | true =>
      rcases hy : b.asBool? with _ | _ | _
      · exact hb
      · obtain rfl := hb.of_asBool? hy
        exact truth_literal V s false
      · exact hb

theorem means_or (ha : V.Truth s a x) (hb : V.Truth s b y) :
    V.Means s .bool (.bool (x || y)) (Plan.or a b) := by
  refine means_sameKind _ (ha.kind.trans hb.kind.symm) (means_bits _ ha.kind ?_)
  rcases hx : a.asBool? with _ | x'
  · rcases hy : b.asBool? with _ | y'
    · simp only [ha.kind]
      exact means_binary ha hb rfl rfl rfl
    · obtain rfl := hb.of_asBool? hy
      cases y' with
      | false =>
        rw [Bool.or_false]
        exact ha
      | true =>
        rw [Bool.or_true]
        exact truth_literal V s true
  · obtain rfl := ha.of_asBool? hx
    cases x' with
    | false =>
      rcases hy : b.asBool? with _ | _ | _
      · exact hb
      · exact hb
      · obtain rfl := hb.of_asBool? hy
        exact truth_literal V s true
    | true => exact truth_literal V s true

theorem means_xor (ha : V.Truth s a x) (hb : V.Truth s b y) :
    V.Means s .bool (.bool (x != y)) (Plan.xor a b) := by
  refine means_sameKind _ (ha.kind.trans hb.kind.symm) (means_bits _ ha.kind ?_)
  rcases hx : a.asBool? with _ | x'
  · rcases hy : b.asBool? with _ | y'
    · simp only [ha.kind]
      exact means_binary ha hb rfl rfl rfl
    · obtain rfl := hb.of_asBool? hy
      cases y' with
      | false =>
        rw [Bool.bne_false]
        exact ha
      | true =>
        rw [Bool.bne_true]
        exact means_not ha
  · obtain rfl := ha.of_asBool? hx
    rcases hy : b.asBool? with _ | y'
    · cases x' with
      | false =>
        rw [Bool.false_bne]
        exact hb
      | true =>
        rw [Bool.true_bne]
        exact means_not hb
    · obtain rfl := hb.of_asBool? hy
      exact truth_literal V s _

variable (h : s.Arena)
include h

theorem gives_not (ha : V.Truth s a x) : V.Gives (Build.not a) s fun v t => V.Truth t v (!x) :=
  gives_primitive h (.not a) (means_not ha)

theorem gives_and (ha : V.Truth s a x) (hb : V.Truth s b y) :
    V.Gives (Build.and a b) s fun v t => V.Truth t v (x && y) :=
  gives_primitive h (.and a b) (means_and ha hb)

theorem gives_or (ha : V.Truth s a x) (hb : V.Truth s b y) :
    V.Gives (Build.or a b) s fun v t => V.Truth t v (x || y) :=
  gives_primitive h (.or a b) (means_or ha hb)

theorem gives_xor (ha : V.Truth s a x) (hb : V.Truth s b y) :
    V.Gives (Build.xor a b) s fun v t => V.Truth t v (x != y) :=
  gives_primitive h (.xor a b) (means_xor ha hb)

end Connectives

section Words

variable (h : s.Arena) {signed : Bool} {n : Nat} {x y : BitVec n}
include h

theorem gives_eq (ha : V.Word s a signed x) (hb : V.Word s b signed y) :
    V.Gives (Build.eq a b) s fun v t => V.Truth t v (decide (x = y)) := by
  refine gives_primitive h (.eq a b) (means_sameKind _ (ha.kind.trans hb.kind.symm) ?_)
  exact means_binary ha hb rfl (by simp [Op.kind?]) V.interp.eq_word

theorem gives_neq (ha : V.Word s a signed x) (hb : V.Word s b signed y) :
    V.Gives (Build.neq a b) s fun v t => V.Truth t v (!decide (x = y)) := by
  refine gives_primitive h (.neq a b) (means_sameKind _ (ha.kind.trans hb.kind.symm) ?_)
  exact means_binary ha hb rfl (by simp [Op.kind?]) V.interp.neq_word

omit h in
theorem means_arith {op : Op} {name : String} {z : BitVec n} (ha : V.Word s a signed x)
    (hb : V.Word s b signed y)
    (hk : op.kind? (.bitVec signed n) [.bitVec signed n, .bitVec signed n] =
      some (.bitVec signed n))
    (hz : V.interp.binary op (.bitVec signed n) (.word x) (.word y) = some (.word z)) :
    V.Means s (.bitVec signed n) (.word z) (Plan.arith op name a b) := by
  unfold Plan.arith
  rw [ha.kind]
  exact means_sameKind _ (ha.kind.trans hb.kind.symm) (means_require _ rfl
    (means_binary ha hb rfl hk hz))

theorem gives_add (ha : V.Word s a signed x) (hb : V.Word s b signed y) :
    V.Gives (Build.add a b) s fun v t => V.Word t v signed (x + y) :=
  gives_primitive h (.add a b)
    (means_arith ha hb (by simp [Op.kind?, Kind.isNumeric]) (V.interp.add_word))

theorem gives_sub (ha : V.Word s a signed x) (hb : V.Word s b signed y) :
    V.Gives (Build.sub a b) s fun v t => V.Word t v signed (x - y) :=
  gives_primitive h (.sub a b)
    (means_arith ha hb (by simp [Op.kind?, Kind.isNumeric]) (V.interp.sub_word))

theorem gives_mul (ha : V.Word s a signed x) (hb : V.Word s b signed y) :
    V.Gives (Build.mul a b) s fun v t => V.Word t v signed (x * y) :=
  gives_primitive h (.mul a b)
    (means_arith ha hb (by simp [Op.kind?, Kind.isNumeric]) (V.interp.mul_word))

/-- The quotient is SMT-LIB's by the signedness of the kind. -/
theorem gives_div (ha : V.Word s a signed x) (hb : V.Word s b signed y) :
    V.Gives (Build.div a b) s fun v t =>
      V.Word t v signed (if signed then x.smtSDiv y else x.smtUDiv y) :=
  gives_primitive h (.div a b)
    (means_arith ha hb (by simp [Op.kind?, Kind.isNumeric]) (V.interp.div_word))

theorem gives_neg (ha : V.Word s a signed x) :
    V.Gives (Build.neg a) s fun v t => V.Word t v signed (-x) := by
  refine gives_primitive h (.neg a) ?_
  show V.Means s _ _ (Plan.neg a)
  unfold Plan.neg
  rw [ha.kind]
  exact means_require _ rfl (means_unary ha rfl (by simp [Op.kind?, Kind.isNumeric]) rfl)

theorem gives_zeroExtend (ha : V.Word s a signed x) (count : Nat) :
    V.Gives (Build.zeroExtend a (n + count)) s fun v t =>
      V.Word t v signed (x.setWidth (n + count)) := by
  refine gives_primitive h (.zeroExtend a (n + count)) (means_wordWidth _ ha.kind ?_)
  rw [if_neg (by omega)]
  by_cases hc : count = 0
  · subst hc
    rw [if_pos (Nat.add_zero n), Nat.add_zero, BitVec.setWidth_eq]
    exact ha
  · rw [if_neg (by omega), Nat.add_sub_cancel_left, ha.kind, Kind.withWidth_bitVec]
    exact means_unary ha rfl (by simp [Op.kind?]) rfl

theorem gives_signExtend (ha : V.Word s a signed x) (count : Nat) :
    V.Gives (Build.signExtend a (n + count)) s fun v t =>
      V.Word t v signed (x.signExtend (n + count)) := by
  refine gives_primitive h (.signExtend a (n + count)) (means_wordWidth _ ha.kind ?_)
  rw [if_neg (by omega)]
  by_cases hc : count = 0
  · subst hc
    rw [if_pos (Nat.add_zero n), Nat.add_zero, BitVec.signExtend_eq]
    exact ha
  · rw [if_neg (by omega), Nat.add_sub_cancel_left, ha.kind, Kind.withWidth_bitVec]
    exact means_unary ha rfl (by simp [Op.kind?]) rfl

/-- Bits `hi` down to `lo`, an unsigned word. -/
theorem gives_extract (ha : V.Word s a signed x) {hi lo : Nat} (hlo : lo ≤ hi) (hhi : hi < n) :
    V.Gives (Build.extract a hi lo) s fun v t =>
      V.Word t v false (x.extractLsb' lo (hi - lo + 1)) := by
  refine gives_primitive h (.extract a hi lo) (means_wordWidth _ ha.kind ?_)
  refine means_require _ (by simp [hlo, hhi]) ?_
  split_ifs with hfull
  · obtain ⟨rfl, rfl, hs⟩ := hfull
    rw [ha.kind] at hs
    obtain rfl : signed = false := by
      cases signed with
      | false => rfl
      | true => cases hs
    have hx : x.extractLsb' 0 (hi + 1) = x := by
      apply BitVec.eq_of_getLsbD_eq
      intro i hi
      simp [hi]
    rw [← hx] at ha
    exact ha
  · refine means_unary ha rfl (if_pos ⟨⟨hlo, hhi⟩, rfl⟩) ?_
    exact if_pos ⟨hlo, hhi⟩

omit h in
theorem means_testBit (ha : V.Word s a signed x) {i : Nat} (hi : i < n) :
    V.Means s .bool (.bool (x.getLsbD i)) (Plan.testBit a i) := by
  refine means_wordWidth _ ha.kind (means_require _ (by simp [hi]) ?_)
  refine means_unary ha rfl (if_pos ⟨hi, rfl⟩) ?_
  exact if_pos hi

theorem gives_testBit (ha : V.Word s a signed x) {i : Nat} (hi : i < n) :
    V.Gives (Build.testBit a i) s fun v t => V.Truth t v (x.getLsbD i) :=
  gives_primitive h (.testBit a i) (means_testBit ha hi)

theorem gives_signBit (ha : V.Word s a signed x) :
    V.Gives (Build.signBit a) s fun v t => V.Truth t v x.msb := by
  refine gives_primitive h (.signBit a) (means_wordWidth _ ha.kind ?_)
  cases n with
  | zero =>
    rw [BitVec.eq_nil x]
    exact truth_literal V s false
  | succ n =>
    rw [BitVec.msb_eq_getLsbD_last]
    exact means_testBit ha (Nat.lt_succ_self n)

omit h in
theorem means_native {op : Op} {name : String} {z : Bool} (ha : V.Word s a signed x)
    (hb : V.Word s b signed y)
    (hk : op.kind? (.bitVec signed n) [.bitVec signed n, .bitVec signed n] = some .bool)
    (hz : V.interp.binary op (.bitVec signed n) (.word x) (.word y) = some (.bool z)) :
    V.Means s .bool (.bool z) (Plan.native op name a b) :=
  means_sameKind _ (ha.kind.trans hb.kind.symm)
    (means_wordWidth _ ha.kind (means_binary ha hb rfl hk hz))

theorem gives_umulNoOverflow (ha : V.Word s a signed x) (hb : V.Word s b signed y) :
    V.Gives (Build.umulNoOverflow a b) s fun v t =>
      V.Truth t v (decide (x.toNat * y.toNat < 2 ^ n)) :=
  gives_primitive h (.umulNoOverflow a b) (means_native ha hb (if_pos rfl)
    V.interp.umulNoOverflow_word)

theorem gives_smulNoOverflow (ha : V.Word s a signed x) (hb : V.Word s b signed y) :
    V.Gives (Build.smulNoOverflow a b) s fun v t =>
      V.Truth t v (decide (x.toInt * y.toInt < 2 ^ (n - 1))) :=
  gives_primitive h (.smulNoOverflow a b) (means_native ha hb (if_pos rfl)
    V.interp.smulNoOverflow_word)

theorem gives_smulNoUnderflow (ha : V.Word s a signed x) (hb : V.Word s b signed y) :
    V.Gives (Build.smulNoUnderflow a b) s fun v t =>
      V.Truth t v (decide (-2 ^ (n - 1) ≤ x.toInt * y.toInt)) :=
  gives_primitive h (.smulNoUnderflow a b) (means_native ha hb (if_pos rfl)
    V.interp.smulNoUnderflow_word)

end Words

end View

end SmtLowering
