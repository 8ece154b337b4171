import SmtLowering.Overflow.Conversion
import SmtLowering.Proofs.BitSpecs
import SmtLowering.Proofs.Ranges

/-!
# What the overflow conditions say

Each predicate on words gives the conditions that its exact result leaves the range, whichever way
it computes them (`View.gives_uadd` and on, `View.gives_ofConversion`). The scans over the bits of
two factors are loops whose invariant is what they have found so far (`View.gives_uscan`,
`View.gives_sscan`).
-/

namespace SmtLowering

open Overflow

namespace View

variable {U : Type} {V : View U} {s : Scope} {a b : Value} {signed : Bool} {n : Nat}
  {x y : BitVec n}

/-- The two conditions are these truth values. -/
def Reports (u v : Bool) (o : Overflow) (s : Scope) : Prop :=
  V.Truth s o.underflow u ∧ V.Truth s o.overflow v

/-- The two conditions are that a number is below or above the range of a word. -/
def Places (z : Int) (signed : Bool) (n : Nat) : Overflow → Scope → Prop :=
  V.Reports (decide (z < leastInt signed n)) (decide (greatestInt signed n < z))

section Parts

variable (h : s.Arena)
include h

theorem gives_operandWidth (op : String) (ha : V.Word s a signed x) :
    V.Gives (operandWidth op a) s fun m t => m = n ∧ t = s := by
  unfold operandWidth Build.wordWidth
  rw [ha.kind]
  exact gives_pure h ⟨rfl, rfl⟩

theorem gives_operandsWidth (op : String) (ha : V.Word s a signed x) (hb : V.Word s b signed y) :
    V.Gives (operandsWidth op a b) s fun m t => m = n ∧ t = s := by
  unfold operandsWidth Build.sameKind
  rw [if_pos (ha.kind.trans hb.kind.symm), pure_bind]
  exact gives_operandWidth h op ha

theorem gives_and3 {c : Value} {p q r : Bool} (ha : V.Truth s a p) (hb : V.Truth s b q)
    (hc : V.Truth s c r) : V.Gives (and3 a b c) s fun v t => V.Truth t v (p && q && r) :=
  (gives_and h ha hb).bind fun _ _ l hab => gives_and l.after hab (hc.later l)

theorem gives_never : V.Gives (pure never) s (V.Reports false false) :=
  gives_pure h ⟨truth_literal V s false, truth_literal V s false⟩

/-- Zero is in range. -/
theorem gives_never_zero {z : Int} (hz : z = 0) : V.Gives (pure never) s (V.Places z signed n) := by
  have hlo := leastInt_nonpos signed n
  have hhi := greatestInt_nonneg signed n
  unfold Places
  rw [decide_eq_false (by omega), decide_eq_false (by omega)]
  exact gives_never h

end Parts

/-- Words without bits never leave the range, so a condition looks at words with one. -/
theorem Gives.measured {m : Build Nat} {f : Nat → Build Overflow} {P : Overflow → Scope → Prop}
    (hm : V.Gives m s fun k t => k = n ∧ t = s) (hempty : n = 0 → V.Gives (pure never) s P)
    (hf : n ≠ 0 → V.Gives (f n) s P) :
    V.Gives (do
      let k ← m
      if k = 0 then pure never else f k) s P := by
  refine hm.bind fun k t _ ⟨hk, ht⟩ => ?_
  subst k t
  split_ifs with hn
  · exact hempty hn
  · exact hf hn

section Bounds

variable {o : Overflow} {z : Int}

theorem places_signed {w : Nat} (hu : V.Truth s o.underflow (decide (z < -2 ^ w)))
    (ho : V.Truth s o.overflow (decide (2 ^ w ≤ z))) : V.Places z true (w + 1) o s := by
  unfold Places
  rw [leastInt_signed, greatestInt_signed, decide_eq_decide.2 Int.sub_one_lt_iff]
  exact ⟨hu, ho⟩

theorem places_unsigned {z : Nat} (hu : V.Truth s o.underflow false)
    (ho : V.Truth s o.overflow (decide (2 ^ n ≤ z))) : V.Places z false n o s := by
  have hbound : greatestInt false n < z ↔ 2 ^ n ≤ z := by
    rw [greatestInt_unsigned, Int.sub_one_lt_iff]
    norm_cast
  unfold Places
  rw [leastInt_unsigned, decide_eq_false (by omega), decide_eq_decide.2 hbound]
  exact ⟨hu, ho⟩

end Bounds

section Sums

variable (h : s.Arena)
include h

theorem gives_uadd (ha : V.Word s a signed x) (hb : V.Word s b signed y) :
    V.Gives (uadd a b) s (V.Places (x.toNat + y.toNat : Nat) false n) := by
  refine (gives_operandsWidth h _ ha hb).measured (fun hn => ?_) fun hn => ?_
  · subst hn
    exact gives_never_zero h (by simp [BitVec.toNat_of_zero_length])
  · refine (gives_zeroExtend h ha 1).bind fun wa t l hwa => ?_
    refine (gives_zeroExtend l.after (hb.later l) 1).bind fun wb t' l' hwb => ?_
    refine (gives_add l'.after (hwa.later l') hwb).bind fun sum t'' l'' hsum => ?_
    refine (gives_testBit l''.after hsum (Nat.lt_succ_self n)).bind fun carry u lu hcarry => ?_
    rw [carry_eq] at hcarry
    exact gives_pure lu.after (places_unsigned (truth_literal V u false) hcarry)

theorem gives_usub (ha : V.Word s a signed x) (hb : V.Word s b signed y) :
    V.Gives (usub a b) s (V.Places (x.toNat - y.toNat) false n) := by
  refine (gives_operandsWidth h _ ha hb).measured (fun hn => ?_) fun hn => ?_
  · subst hn
    exact gives_never_zero h (by simp [BitVec.toNat_of_zero_length])
  · refine (gives_zeroExtend h ha 1).bind fun wa t l hwa => ?_
    refine (gives_zeroExtend l.after (hb.later l) 1).bind fun wb t' l' hwb => ?_
    refine (gives_sub l'.after (hwa.later l') hwb).bind fun diff t'' l'' hdiff => ?_
    refine (gives_testBit l''.after hdiff (Nat.lt_succ_self n)).bind fun borrow u lu hborrow => ?_
    refine gives_pure lu.after ⟨?_, ?_⟩
    · rw [borrow_eq] at hborrow
      have hbound : x.toNat < y.toNat ↔ (x.toNat - y.toNat : Int) < leastInt false n := by
        rw [leastInt_unsigned]
        omega
      rwa [decide_eq_decide.2 hbound] at hborrow
    · have hx := x.isLt
      zify at hx
      rw [greatestInt_unsigned, decide_eq_false (by omega)]
      exact truth_literal V u false

/-- The signs of three words and their negations. -/
theorem gives_signs {c : Value} {z : BitVec n} {β : Type} {Q : β → Scope → Prop}
    {f : Value → Value → Value → Value → Value → Value → Build β} (ha : V.Word s a signed x)
    (hb : V.Word s b signed y) (hc : V.Word s c signed z)
    (hf : ∀ sa sb sc na nb nc t, s.Later t → V.Truth t sa x.msb → V.Truth t sb y.msb →
      V.Truth t sc z.msb → V.Truth t na (!x.msb) → V.Truth t nb (!y.msb) → V.Truth t nc (!z.msb) →
      V.Gives (f sa sb sc na nb nc) t Q) :
    V.Gives (do
      let sa ← Build.signBit a
      let sb ← Build.signBit b
      let sc ← Build.signBit c
      let na ← Build.not sa
      let nb ← Build.not sb
      let nc ← Build.not sc
      f sa sb sc na nb nc) s Q := by
  refine (gives_signBit h ha).bind fun sa t₁ l₁ hsa => ?_
  refine (gives_signBit l₁.after (hb.later l₁)).bind fun sb t₂ l₂ hsb => ?_
  have l := l₁.trans l₂
  refine (gives_signBit l.after (hc.later l)).bind fun sc t₃ l₃ hsc => ?_
  replace hsa := hsa.later (l₂.trans l₃)
  replace hsb := hsb.later l₃
  refine (gives_not l₃.after hsa).bind fun na t₄ l₄ hna => ?_
  refine (gives_not l₄.after (hsb.later l₄)).bind fun nb t₅ l₅ hnb => ?_
  have l' := l₄.trans l₅
  refine (gives_not l'.after (hsc.later l')).bind fun nc t₆ l₆ hnc => ?_
  have l'' := l'.trans l₆
  exact hf sa sb sc na nb nc t₆ ((l.trans l₃).trans l'') (hsa.later l'') (hsb.later l'')
    (hsc.later l'') (hna.later (l₅.trans l₆)) (hnb.later l₆) hnc

theorem gives_sadd (ha : V.Word s a signed x) (hb : V.Word s b signed y) :
    V.Gives (sadd a b) s (V.Places (x.toInt + y.toInt) true n) := by
  refine (gives_operandsWidth h _ ha hb).measured (fun hn => ?_) fun hn => ?_
  · subst hn
    exact gives_never_zero h (by simp [BitVec.toInt_of_zero_length])
  · refine (gives_add h ha hb).bind fun sum t l hsum => ?_
    refine gives_signs l.after (ha.later l) (hb.later l) hsum
      fun sa sb ss na nb ns t l hsa hsb hss hna hnb hns => ?_
    refine (gives_and3 l.after hsa hsb hns).bind fun below t l hbelow => ?_
    refine (gives_and3 l.after (hna.later l) (hnb.later l) (hss.later l)).bind
      fun beyond u lu hbeyond => ?_
    obtain ⟨w, rfl⟩ := Nat.exists_eq_add_one_of_ne_zero hn
    obtain ⟨hlow, hhigh⟩ := sum_signs x y
    rw [hlow] at hbelow
    rw [hhigh] at hbeyond
    exact gives_pure lu.after (places_signed (hbelow.later lu) hbeyond)

theorem gives_ssub (ha : V.Word s a signed x) (hb : V.Word s b signed y) :
    V.Gives (ssub a b) s (V.Places (x.toInt - y.toInt) true n) := by
  refine (gives_operandsWidth h _ ha hb).measured (fun hn => ?_) fun hn => ?_
  · subst hn
    exact gives_never_zero h (by simp [BitVec.toInt_of_zero_length])
  · refine (gives_sub h ha hb).bind fun diff t l hdiff => ?_
    refine gives_signs l.after (ha.later l) (hb.later l) hdiff
      fun sa sb sd na nb nd t l hsa hsb hsd hna hnb hnd => ?_
    refine (gives_and3 l.after hsa hnb hnd).bind fun below t l hbelow => ?_
    refine (gives_and3 l.after (hna.later l) (hsb.later l) (hsd.later l)).bind
      fun beyond u lu hbeyond => ?_
    obtain ⟨w, rfl⟩ := Nat.exists_eq_add_one_of_ne_zero hn
    obtain ⟨hlow, hhigh⟩ := difference_signs x y
    rw [hlow] at hbelow
    rw [hhigh] at hbeyond
    exact gives_pure lu.after (places_signed (hbelow.later lu) hbeyond)

end Sums

section Scans

/-- What a scan has found after `i` turns: whether the bits of `x` so far are all clear, and whether
one of `y` has met any. -/
def Found (V : View U) (w x y i : Nat) (c : Value × Value) (s : Scope) : Prop :=
  V.Truth s c.1 (decide (2 ^ (w - i) ≤ x)) ∧ V.Truth s c.2 (scanned w x y i)

theorem found_zero {w x y : Nat} (hx : x < 2 ^ w) :
    V.Found w x y 0 (Value.bool false, Value.bool false) s := by
  refine ⟨?_, truth_literal V s false⟩
  rw [Nat.sub_zero, decide_eq_false (Nat.not_le.2 hx)]
  exact truth_literal V s false

/-- One more bit of each factor. -/
theorem found_succ {w x y i : Nat} {seen wrapped : Value} (hi : i < w)
    (hseen : V.Truth s seen (decide (2 ^ (w - i) ≤ x) || x.testBit (w - (i + 1))))
    (hwrapped : V.Truth s wrapped (scanned w x y i ||
      (decide (2 ^ (w - i) ≤ x) || x.testBit (w - (i + 1))) && y.testBit (i + 1))) :
    V.Found w x y (i + 1) (seen, wrapped) s := by
  have hbound := two_pow_le_iff x (w - (i + 1))
  rw [show w - (i + 1) + 1 = w - i by omega] at hbound
  rw [← hbound] at hseen hwrapped
  rw [← scanned_succ] at hwrapped
  exact ⟨hseen, hwrapped⟩

end Scans

section Products

variable (h : s.Arena)
include h

theorem gives_usesNative : V.Gives (usesNative a b) s fun r t =>
    t = s ∧ r = (s.config.nativeMulOverflow && !a.isConcrete && !b.isConcrete) :=
  ⟨_, s, rfl, .refl h, fun _ => rfl, rfl, rfl⟩

theorem gives_uscan (ha : V.Word s a signed x) (hb : V.Word s b signed y) :
    V.Gives (uscan a b n) s fun v t => V.Truth t v (scanned n x.toNat y.toNat (n - 1)) := by
  refine Gives.bind (P := V.Found n x.toNat y.toNat (n - 1)) ?_
    fun c t l hc => gives_pure l.after hc.2
  · refine gives_foldlM h (found_zero x.isLt) ?_
    rintro i hi ⟨seen, wrapped⟩ t l ⟨hseen, hwrapped⟩
    rw [Nat.add_comm]
    refine (gives_testBit l.after (ha.later l) (by omega)).bind fun ai t₁ l₁ hai => ?_
    refine (gives_or l₁.after (hseen.later l₁) hai).bind fun seen' t₂ l₂ hseen' => ?_
    have hb' := hb.later ((l.trans l₁).trans l₂)
    refine (gives_testBit l₂.after hb' (by omega)).bind fun bi t₃ l₃ hbi => ?_
    refine (gives_and l₃.after (hseen'.later l₃) hbi).bind fun hit t₄ l₄ hhit => ?_
    have hwrapped' := hwrapped.later (((l₁.trans l₂).trans l₃).trans l₄)
    refine (gives_or l₄.after hwrapped' hhit).bind fun wrapped' u lu hw => ?_
    exact gives_pure lu.after
      (found_succ (by omega) (hseen'.later ((l₃.trans l₄).trans lu)) hw)

/-- The bits of the magnitudes are those that differ from the signs. -/
theorem gives_sscan {sa sb : Value} (ha : V.Word s a signed x) (hb : V.Word s b signed y)
    (hsa : V.Truth s sa x.msb) (hsb : V.Truth s sb y.msb) (hx : magnitude x < 2 ^ (n - 1)) :
    V.Gives (sscan a b sa sb n) s fun v t =>
      V.Truth t v (scanned (n - 1) (magnitude x) (magnitude y) (n - 2)) := by
  refine Gives.bind (P := V.Found (n - 1) (magnitude x) (magnitude y) (n - 2)) ?_
    fun c t l hc => gives_pure l.after hc.2
  · refine gives_foldlM h (found_zero hx) ?_
    rintro i hi ⟨seen, wrapped⟩ t l ⟨hseen, hwrapped⟩
    rw [Nat.add_comm]
    refine (gives_testBit l.after (hb.later l) (by omega)).bind fun bi t₁ l₁ hbi => ?_
    have l' := l.trans l₁
    refine (gives_xor l₁.after (hsb.later l') hbi).bind fun mb t₂ l₂ hmb => ?_
    replace l' := l'.trans l₂
    refine (gives_testBit l₂.after (ha.later l') (by omega)).bind fun ai t₃ l₃ hai => ?_
    replace l' := l'.trans l₃
    refine (gives_xor l₃.after (hsa.later l') hai).bind fun ma t₄ l₄ hma => ?_
    have l₁₄ := ((l₁.trans l₂).trans l₃).trans l₄
    refine (gives_or l₄.after (hseen.later l₁₄) hma).bind fun seen' t₅ l₅ hseen' => ?_
    have hmb' := hmb.later ((l₃.trans l₄).trans l₅)
    refine (gives_and l₅.after hseen' hmb').bind fun hit t₆ l₆ hhit => ?_
    have hwrapped' := hwrapped.later ((l₁₄.trans l₅).trans l₆)
    refine (gives_or l₆.after hwrapped' hhit).bind fun wrapped' u lu hw => ?_
    rw [← magnitude_testBit x (by omega)] at hseen' hw
    rw [← magnitude_testBit y (by omega)] at hw
    exact gives_pure lu.after (found_succ (by omega) (hseen'.later (l₆.trans lu)) hw)

theorem gives_umul (ha : V.Word s a signed x) (hb : V.Word s b signed y) :
    V.Gives (umul a b) s (V.Places (x.toNat * y.toNat : Nat) false n) := by
  refine (gives_operandsWidth h _ ha hb).measured (fun hn => ?_) fun hn => ?_
  · subst hn
    exact gives_never_zero h (by simp [BitVec.toNat_of_zero_length])
  · refine (gives_usesNative h).bind fun r t _ ⟨ht, _⟩ => ?_
    subst t
    split_ifs
    · refine (gives_umulNoOverflow h ha hb).bind fun ok t l hok => ?_
      refine (gives_not l.after hok).bind fun beyond u lu hbeyond => ?_
      rw [← decide_not, decide_eq_decide.2 Nat.not_lt] at hbeyond
      exact gives_pure lu.after (places_unsigned (truth_literal V u false) hbeyond)
    · refine (gives_zeroExtend h ha 1).bind fun wa t₁ l₁ hwa => ?_
      refine (gives_zeroExtend l₁.after (hb.later l₁) 1).bind fun wb t₂ l₂ hwb => ?_
      refine (gives_mul l₂.after (hwa.later l₂) hwb).bind fun product t₃ l₃ hproduct => ?_
      refine (gives_testBit l₃.after hproduct (Nat.lt_succ_self n)).bind fun carried t₄ l₄ hc => ?_
      have l := ((l₁.trans l₂).trans l₃).trans l₄
      refine (gives_uscan l.after (ha.later l) (hb.later l)).bind fun wrapped t₅ l₅ hwrapped => ?_
      refine (gives_or l₅.after (hc.later l₅) hwrapped).bind fun beyond u lu hbeyond => ?_
      rw [carried_or_scanned] at hbeyond
      exact gives_pure lu.after (places_unsigned (truth_literal V u false) hbeyond)

theorem gives_smul (ha : V.Word s a signed x) (hb : V.Word s b signed y) :
    V.Gives (smul a b) s (V.Places (x.toInt * y.toInt) true n) := by
  refine (gives_operandsWidth h _ ha hb).measured (fun hn => ?_) fun hn => ?_
  · subst hn
    exact gives_never_zero h (by simp [BitVec.toInt_of_zero_length])
  · obtain ⟨w, rfl⟩ := Nat.exists_eq_add_one_of_ne_zero hn
    refine (gives_usesNative h).bind fun r t _ ⟨ht, _⟩ => ?_
    subst t
    split_ifs
    · refine (gives_smulNoOverflow h ha hb).bind fun noOver t₁ l₁ hover => ?_
      have hu := gives_smulNoUnderflow l₁.after (ha.later l₁) (hb.later l₁)
      refine hu.bind fun noUnder t₂ l₂ hunder => ?_
      refine (gives_not l₂.after hunder).bind fun below t₃ l₃ hbelow => ?_
      refine (gives_not l₃.after (hover.later (l₂.trans l₃))).bind fun beyond u lu hbeyond => ?_
      rw [← decide_not, decide_eq_decide.2 Int.not_le] at hbelow
      rw [← decide_not, decide_eq_decide.2 Int.not_lt] at hbeyond
      exact gives_pure lu.after (places_signed (hbelow.later lu) hbeyond)
    · refine (gives_signExtend h ha 1).bind fun wa t₁ l₁ hwa => ?_
      refine (gives_signExtend l₁.after (hb.later l₁) 1).bind fun wb t₂ l₂ hwb => ?_
      refine (gives_mul l₂.after (hwa.later l₂) hwb).bind fun product t₃ l₃ hp => ?_
      refine (gives_testBit l₃.after hp (by omega)).bind fun top t₄ l₄ htop => ?_
      refine (gives_testBit l₄.after (hp.later l₄) (by omega)).bind fun next t₅ l₅ hnext => ?_
      refine (gives_xor l₅.after (htop.later l₅) hnext).bind fun spilled t₆ l₆ hspilled => ?_
      have l := ((((l₁.trans l₂).trans l₃).trans l₄).trans l₅).trans l₆
      refine (gives_testBit l.after (ha.later l) (by omega)).bind fun sa t₇ l₇ hsa => ?_
      replace l := l.trans l₇
      refine (gives_testBit l.after (hb.later l) (by omega)).bind fun sb t₈ l₈ hsb => ?_
      replace l := l.trans l₈
      replace hsa := hsa.later l₈
      rw [← BitVec.msb_eq_getLsbD_last] at hsa hsb
      have hscan := gives_sscan l.after (ha.later l) (hb.later l) hsa hsb (toInt_eq_magnitude x).1
      refine hscan.bind fun wrapped t₉ l₉ hwrapped => ?_
      have hspilled' := hspilled.later ((l₇.trans l₈).trans l₉)
      refine (gives_or l₉.after hspilled' hwrapped).bind fun flag t l' hflag => ?_
      replace l' := l₉.trans l'
      refine (gives_xor l'.after (hsa.later l') (hsb.later l')).bind fun differ t' ld hdiffer => ?_
      refine (gives_not ld.after hdiffer).bind fun same t'' ls hsame => ?_
      replace hflag := hflag.later (ld.trans ls)
      refine (gives_and ls.after (hdiffer.later ls) hflag).bind fun below u lu hbelow => ?_
      refine (gives_and lu.after (hsame.later lu) (hflag.later lu)).bind fun beyond u' lu' hb' => ?_
      obtain ⟨hlow, hhigh⟩ := product_sides x y (spilled_or_scanned x y)
      refine gives_pure lu'.after (places_signed ?_ ?_)
      · rw [← hlow]
        exact hbelow.later lu'
      · rw [← hhigh]
        exact hb'

end Products

section Quotients

/-- The least word, as a bit pattern of its kind's signedness. -/
def leastWord (signed : Bool) (n : Nat) : BitVec n := BitVec.ofInt n (leastInt signed n)

theorem toInt_leastWord (signed : Bool) (n : Nat) :
    (leastWord signed n).toInt = leastInt signed n := by
  unfold leastWord
  cases signed with
  | false => rw [leastInt_unsigned, BitVec.ofInt_ofNat, BitVec.toInt_zero]
  | true =>
    cases n with
    | zero => rfl
    | succ w =>
      have hpos : (0 : Int) < 2 ^ w := by positivity
      rw [leastInt_signed]
      apply BitVec.toInt_ofInt_eq_self (Nat.succ_pos w)
      · simp
      · simp

/-- The two's-complement reading tells the least word of either kind. -/
theorem eq_leastWord_iff : x = leastWord signed n ↔ x.toInt = leastInt signed n := by
  rw [← toInt_leastWord, BitVec.toInt_inj]

theorem eq_neg_one_iff (hn : 0 < n) : x = -1#n ↔ x.toInt = -1 := by
  have hone : (-1#n).toInt = -1 := by
    rw [BitVec.neg_one_eq_allOnes, BitVec.toInt_allOnes, if_pos hn]
  rw [← hone, BitVec.toInt_inj]

theorem word_minOf (V : View U) (s : Scope) (signed : Bool) (n : Nat) :
    V.Word s (minOf (.bitVec signed n)) signed (leastWord signed n) := by
  have hmin : Literal.minWord signed n = .word signed n (leastInt signed n) := by
    unfold Literal.minWord leastInt
    rw [modulus_eq]
    split_ifs
    · push_cast
      rfl
    · rfl
  show V.Word s (.concrete (.minWord signed n)) signed _
  rw [hmin]
  exact word_literal V s signed n _

variable (h : s.Arena)
include h

theorem gives_udiv (ha : V.Word s a signed x) (hb : V.Word s b signed y) :
    V.Gives (udiv a b) s (V.Reports false false) :=
  (gives_operandsWidth h _ ha hb).bind fun _ _ l _ => gives_never l.after

theorem gives_sdiv (ha : V.Word s a signed x) (hb : V.Word s b signed y) :
    V.Gives (sdiv a b) s
      (V.Reports false (n != 0 && (decide (x = leastWord signed n) && decide (y = -1#n)))) := by
  refine (gives_operandsWidth h _ ha hb).measured (fun hn => ?_) fun hn => ?_
  · subst hn
    exact gives_never h
  · rw [ha.kind]
    have hmin := word_minOf V s signed n
    refine (gives_eq h ha hmin).bind fun aMin t l haMin => ?_
    have hone := word_literal V t signed n (-1)
    rw [BitVec.ofInt_neg, BitVec.ofInt_ofNat] at hone
    refine (gives_eq l.after (hb.later l) hone).bind fun bMinusOne t' l' hbOne => ?_
    refine (gives_and l'.after (haMin.later l') hbOne).bind fun beyond u lu hbeyond => ?_
    refine gives_pure lu.after ⟨truth_literal V u false, ?_⟩
    rw [bne_iff_ne.2 hn, Bool.true_and]
    exact hbeyond

theorem gives_uneg (ha : V.Word s a signed x) :
    V.Gives (uneg a) s (V.Reports false false) :=
  (gives_operandWidth h _ ha).bind fun _ _ l _ => gives_never l.after

theorem gives_sneg (ha : V.Word s a signed x) :
    V.Gives (sneg a) s (V.Reports false (n != 0 && decide (x = leastWord signed n))) := by
  refine (gives_operandWidth h _ ha).measured (fun hn => ?_) fun hn => ?_
  · subst hn
    exact gives_never h
  · rw [ha.kind]
    refine (gives_eq h ha (word_minOf V s signed n)).bind fun beyond u lu hbeyond => ?_
    refine gives_pure lu.after ⟨truth_literal V u false, ?_⟩
    rw [bne_iff_ne.2 hn, Bool.true_and]
    exact hbeyond

end Quotients

section Conversions

variable {hi : Nat} (h : s.Arena)
include h

theorem gives_anySet (lo : Nat) (ha : V.Word s a signed x) (hhi : hi ≤ n) :
    V.Gives (anySet a lo hi) s fun v t => V.Truth t v (decide (2 ^ lo ≤ x.toNat % 2 ^ hi)) := by
  unfold anySet
  split_ifs with hempty
  · have hmod := Nat.mod_lt x.toNat (Nat.two_pow_pos hi)
    have hpow := Nat.pow_le_pow_right Nat.two_pos hempty
    rw [decide_eq_false (by omega)]
    exact gives_pure h (truth_literal V s false)
  · refine (gives_extract h ha (by omega) (by omega)).bind fun bits t l hbits => ?_
    rw [hbits.kind]
    have hzero := word_literal V t false (hi - 1 - lo + 1) 0
    rw [BitVec.ofInt_ofNat] at hzero
    rw [← extract_ne_zero x (by omega)]
    exact gives_neq l.after hbits hzero

theorem gives_allSet (lo : Nat) (ha : V.Word s a signed x) (hhi : hi ≤ n) :
    V.Gives (allSet a lo hi) s fun v t =>
      V.Truth t v (!decide (2 ^ lo ≤ (~~~x).toNat % 2 ^ hi)) := by
  unfold allSet
  split_ifs with hempty
  · have hmod := Nat.mod_lt (~~~x).toNat (Nat.two_pow_pos hi)
    have hpow := Nat.pow_le_pow_right Nat.two_pos hempty
    rw [decide_eq_false (by omega)]
    exact gives_pure h (truth_literal V s true)
  · refine (gives_extract h ha (by omega) (by omega)).bind fun bits t l hbits => ?_
    rw [hbits.kind]
    have hones := word_literal V t false (hi - 1 - lo + 1) ((2 ^ (hi - 1 - lo + 1) : Nat) - 1)
    rw [ofInt_allOnes] at hones
    rw [← extract_eq_allOnes x (by omega) hhi]
    exact gives_eq l.after hbits hones

theorem gives_wordKind (op : String) :
    V.Gives (wordKind op (.bitVec signed n)) s fun r t => r = (signed, n) ∧ t = s :=
  gives_pure h ⟨rfl, rfl⟩

omit h in
/-- An unsigned target, or one without bits, has the range of an unsigned one. -/
theorem places_narrow {target : Bool} {m : Nat} {z : Int} {o : Overflow}
    (hm : (!target || m == 0) = true) (ho : V.Places z false m o s) : V.Places z target m o s := by
  have hno : ¬(target = true ∧ 0 < m) := by
    rintro ⟨rfl, hpos⟩
    simp at hm
    omega
  have hlo : leastInt target m = leastInt false m := if_neg hno
  have hhi : greatestInt target m = greatestInt false m := if_neg hno
  unfold Places
  rw [hlo, hhi]
  exact ho

omit h in
theorem exists_wide {target : Bool} {m : Nat} (hm : ¬(!target || m == 0) = true) :
    ∃ k, target = true ∧ m = k + 1 := by
  cases target with
  | false => simp at hm
  | true =>
    cases m with
    | zero => simp at hm
    | succ k => exact ⟨k, rfl, rfl⟩

theorem gives_ofConversion_unsigned {target : Bool} {m : Nat} (ha : V.Word s a false x) :
    V.Gives (ofConversion a (.bitVec target m)) s (V.Places x.toNat target m) := by
  unfold ofConversion
  rw [ha.kind]
  refine (gives_wordKind h _).bind fun r t _ ⟨hr, ht⟩ => ?_
  subst r t
  refine (gives_wordKind h _).bind fun r t _ ⟨hr, ht⟩ => ?_
  subst r t
  simp only [Bool.false_eq_true, if_false]
  split_ifs with hn hm hfalse
  · subst hn
    exact gives_never_zero h (by simp [BitVec.toNat_of_zero_length])
  · rw [pure_bind]
    refine (gives_not h (truth_literal V s false)).bind fun positive t l _ => ?_
    refine (gives_anySet l.after _ (ha.later l) le_rfl).bind fun beyond u lu hbeyond => ?_
    rw [Nat.mod_eq_of_lt x.isLt] at hbeyond
    exact gives_pure lu.after (places_narrow hm (places_unsigned (truth_literal V u false) hbeyond))
  · obtain ⟨k, rfl, rfl⟩ := exists_wide hm
    rw [pure_bind]
    refine (gives_not h (truth_literal V s false)).bind fun positive t l _ => ?_
    refine (gives_anySet l.after _ (ha.later l) le_rfl).bind fun beyond u lu hbeyond => ?_
    rw [Nat.mod_eq_of_lt x.isLt] at hbeyond
    have hpos : (0 : Int) < 2 ^ k := by positivity
    refine gives_pure lu.after (places_signed ?_ ?_)
    · rw [decide_eq_false (by omega)]
      exact truth_literal V u false
    · have hcast : ((2 : Int) ^ k ≤ x.toNat) ↔ 2 ^ k ≤ x.toNat := by norm_cast
      rw [decide_eq_decide.2 hcast]
      exact hbeyond
  · exact absurd rfl hfalse

theorem gives_ofConversion_signed {target : Bool} {m : Nat} (ha : V.Word s a true x) :
    V.Gives (ofConversion a (.bitVec target m)) s (V.Places x.toInt target m) := by
  unfold ofConversion
  rw [ha.kind]
  refine (gives_wordKind h _).bind fun r t _ ⟨hr, ht⟩ => ?_
  subst r t
  refine (gives_wordKind h _).bind fun r t _ ⟨hr, ht⟩ => ?_
  subst r t
  simp only [if_true]
  split_ifs with hn hm hfalse
  · subst hn
    exact gives_never_zero h (by simp [BitVec.toInt_of_zero_length])
  · obtain ⟨w, rfl⟩ := Nat.exists_eq_add_one_of_ne_zero hn
    refine (gives_signBit h ha).bind fun sign t₁ l₁ hsign => ?_
    refine (gives_not l₁.after hsign).bind fun positive t₂ l₂ hpositive => ?_
    have l := l₁.trans l₂
    refine (gives_anySet l.after _ (ha.later l) (Nat.sub_le _ 1)).bind fun high t₃ l₃ hhigh => ?_
    refine (gives_and l₃.after (hpositive.later l₃) hhigh).bind fun beyond u lu hbeyond => ?_
    rw [Nat.add_sub_cancel, above_eq] at hbeyond
    refine gives_pure lu.after (places_narrow hm ⟨?_, ?_⟩)
    · rw [leastInt_unsigned, ← BitVec.msb_eq_toInt]
      exact hsign.later ((l₂.trans l₃).trans lu)
    · rw [greatestInt_unsigned, decide_eq_decide.2 Int.sub_one_lt_iff]
      exact hbeyond
  · cases hfalse
  · obtain ⟨w, rfl⟩ := Nat.exists_eq_add_one_of_ne_zero hn
    obtain ⟨k, rfl, rfl⟩ := exists_wide hm
    refine (gives_signBit h ha).bind fun sign t₁ l₁ hsign => ?_
    refine (gives_not l₁.after hsign).bind fun positive t₂ l₂ hpositive => ?_
    have l := l₁.trans l₂
    refine (gives_anySet l.after _ (ha.later l) (Nat.sub_le _ 1)).bind fun high t₃ l₃ hhigh => ?_
    replace l := l.trans l₃
    have hall := gives_allSet l.after k (ha.later l) (Nat.sub_le (w + 1) 1)
    refine hall.bind fun allHigh t₄ l₄ hallHigh => ?_
    refine (gives_not l₄.after hallHigh).bind fun notAllHigh t₅ l₅ hnot => ?_
    have hsign' := hsign.later (((l₂.trans l₃).trans l₄).trans l₅)
    refine (gives_and l₅.after hsign' hnot).bind fun below t₆ l₆ hbelow => ?_
    have l₄₆ := (l₄.trans l₅).trans l₆
    have hpositive' := hpositive.later (l₃.trans l₄₆)
    refine (gives_and l₆.after hpositive' (hhigh.later l₄₆)).bind fun beyond u lu hbeyond => ?_
    rw [Nat.add_sub_cancel, Bool.not_not, below_eq] at hbelow
    rw [Nat.add_sub_cancel, Nat.add_sub_cancel, above_eq] at hbeyond
    exact gives_pure lu.after (places_signed (hbelow.later lu) hbeyond)

theorem gives_ofConversion {target : Bool} {m : Nat} (ha : V.Word s a signed x) :
    V.Gives (ofConversion a (.bitVec target m)) s (V.Places (reading signed x) target m) := by
  cases signed with
  | false => exact gives_ofConversion_unsigned h ha
  | true => exact gives_ofConversion_signed h ha

end Conversions

end View

end SmtLowering
