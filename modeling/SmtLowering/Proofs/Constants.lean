import Mathlib.Data.List.TakeWhile
import SmtLowering.Proofs.FloatLiterals
import SmtLowering.Proofs.Folding

/-!
# Constants read back

`SExpr.constant?` reads a constant of SMT-LIB by its form alone: truth values, words in hexadecimal
or binary digits, each digit standing for four bits or for one, numerals and decimals, negations and
quotients. The text of a literal reads as its value (`Literal.text_reads_back`), so a kind's
literals have different texts.
-/

namespace SmtLowering

inductive Constant
  | truth (b : Bool)
  | word {n : ℕ} (x : BitVec n)
  | integer (i : ℤ)
  | rational (q : ℚ)
  deriving DecidableEq

namespace Constant

def neg? : Constant → Option Constant
  | integer i => some (integer (-i))
  | rational q => some (rational (-q))
  | _ => none

def div? : Constant → Constant → Option Constant
  | rational p, rational q => if q = 0 then none else some (rational (p / q))
  | _, _ => none

theorem word_ofNat {m n : ℕ} (x : BitVec n) (h : m = n) :
    word (BitVec.ofNat m x.toNat) = word x := by
  subst h
  rw [BitVec.ofNat_toNat, BitVec.setWidth_eq]

end Constant

section Digits

/-- What a digit of the base stands for, in either case. -/
def digit? (base : ℕ) (c : Char) : Option ℕ :=
  ("0123456789abcdef".toList.idxOf? c.toLower).filter (· < base)

/-- The number that digits stand for after those of `n`. -/
def positional? (base n : ℕ) (digits : List Char) : Option ℕ :=
  digits.foldlM (fun n c => (digit? base c).map (base * n + ·)) n

theorem digit?_digitChar {base d : ℕ} (hb : base ≤ 16) (hd : d < base) :
    digit? base (Nat.digitChar d) = some d := by
  have hindex : ∀ d < 16,
      "0123456789abcdef".toList.idxOf? (Nat.digitChar d).toLower = some d := by decide
  rw [digit?, hindex d (by omega), Option.filter_some, if_pos (by simpa using hd)]

theorem positional?_append (base n : ℕ) (ds es : List Char) :
    positional? base n (ds ++ es) = (positional? base n ds).bind (positional? base · es) := by
  simp only [positional?, List.foldlM_append, Option.bind_eq_bind]

theorem positional?_singleton (base n : ℕ) (c : Char) :
    positional? base n [c] = (digit? base c).map (base * n + ·) := by
  simp [positional?]

theorem positional?_toDigits {base : ℕ} (hb : 1 < base) (hb' : base ≤ 16) (n : ℕ) :
    positional? base 0 (Nat.toDigits base n) = some n := by
  induction n using Nat.strong_induction_on with
  | _ n ih =>
    rw [Nat.toDigits_eq_if hb]
    split_ifs with hn
    · rw [positional?_singleton, digit?_digitChar hb' hn]
      simp
    · have hmod := Nat.mod_lt n (by omega : 0 < base)
      rw [positional?_append, ih (n / base) (Nat.div_lt_self (by omega) hb), Option.bind_some,
        positional?_singleton, digit?_digitChar hb' hmod, Option.map_some, Nat.div_add_mod]

theorem positional?_zeros {base : ℕ} (hb : 0 < base) (count : ℕ) :
    positional? base 0 (List.replicate count '0') = some 0 := by
  have hzero : digit? base '0' = some 0 := by
    have hindex : "0123456789abcdef".toList.idxOf? ('0' : Char).toLower = some 0 := by decide
    rw [digit?, hindex, Option.filter_some, if_pos (by simpa using hb)]
  induction count with
  | zero => rfl
  | succ count ih =>
    rw [List.replicate_succ', positional?_append, ih, Option.bind_some, positional?_singleton,
      hzero]
    simp

variable {base width n : ℕ}

theorem positional?_paddedDigits (hb : 1 < base) (hb' : base ≤ 16) (width n : ℕ) :
    positional? base 0 (paddedDigits base width n).toList = some n := by
  rw [paddedDigits, String.toList_ofList, List.leftpad, positional?_append,
    positional?_zeros (by omega), Option.bind_some, positional?_toDigits hb hb']

theorem length_paddedDigits (hb : 1 < base) (hw : 0 < width) (hn : n < base ^ width) :
    (paddedDigits base width n).length = width := by
  rw [← String.length_toList, paddedDigits, String.toList_ofList, List.length_leftpad,
    max_eq_left ((Nat.length_toDigits_le_iff hb hw).2 hn)]

end Digits

namespace SExpr

/-- A word: four bits for each hexadecimal digit, or one for each binary one. -/
def vector? (s : String) : Option Constant :=
  match s.toList with
  | '#' :: 'x' :: digits =>
    (positional? 16 0 digits).map fun v => .word (BitVec.ofNat (4 * digits.length) v)
  | '#' :: 'b' :: digits =>
    (positional? 2 0 digits).map fun v => .word (BitVec.ofNat digits.length v)
  | _ => none

def truth? (s : String) : Option Constant :=
  if s = "true" then some (.truth true) else if s = "false" then some (.truth false) else none

/-- The constant of a term of literals, signs and quotients. -/
def constant? : SExpr → Option Constant
  | .atom s =>
    (decimal? s).map .rational <|> (numeral? s).map (.integer ·) <|> vector? s <|> truth? s
  | .cons (.atom "-") (.cons t .nil) => (constant? t).bind Constant.neg?
  | .cons (.atom "/") (.cons t (.cons u .nil)) =>
    (constant? t).bind fun a => (constant? u).bind a.div?
  | _ => none

theorem constant?_of_real? {e : SExpr} {q : ℚ} (h : e.real? = some q) :
    e.constant? = some (.rational q) := by
  fun_induction real? e generalizing q with
  | case1 s => simp [constant?, h]
  | case2 t ih =>
    obtain ⟨a, ha, rfl⟩ := Option.map_eq_some_iff.1 h
    simp [constant?, ih ha, Constant.neg?]
  | case3 t u iht ihu =>
    obtain ⟨a, ha, h⟩ := Option.bind_eq_some_iff.1 h
    obtain ⟨b, hb, h⟩ := Option.bind_eq_some_iff.1 h
    split_ifs at h with hzero
    cases h
    simp [constant?, iht ha, ihu hb, Constant.div?, hzero]
  | case4 => cases h

theorem decimal?_eq_none {s : String} (h : '.' ∉ s.toList) : decimal? s = none := by
  have hall : ∀ c ∈ s.toList, decide (c ≠ '.') = true := by
    intro c hc
    rw [decide_eq_true_eq]
    rintro rfl
    exact h hc
  simp only [decimal?, List.span_eq_takeWhile_dropWhile, List.dropWhile_eq_nil_iff.2 hall]

theorem numeral?_eq_none {s : String} (h : s.toList.head? = some '#') : numeral? s = none := by
  rw [numeral?, if_neg]
  rintro ⟨-, hall⟩
  exact absurd (List.all_eq_true.1 hall '#' (List.mem_of_head? h)) (by decide)

theorem constant?_of_vector? {s : String} {value : Constant} (hstart : s.toList.head? = some '#')
    (hpoint : '.' ∉ s.toList) (h : vector? s = some value) : constant? (.atom s) = some value := by
  rw [constant?, decimal?_eq_none hpoint, numeral?_eq_none hstart, h]
  rfl

end SExpr

section Points

variable {base : ℕ}

theorem point_not_mem_toDigits (hb : 1 < base) (hb' : base ≤ 16) (n : ℕ) :
    '.' ∉ Nat.toDigits base n := by
  intro h
  obtain ⟨d, hd, hpoint⟩ := exists_digit_of_mem_toDigits hb h
  have hdigit : ∀ d < 16, '.' ≠ Nat.digitChar d := by decide
  exact hdigit d (by omega) hpoint

theorem point_not_mem_paddedDigits (hb : 1 < base) (hb' : base ≤ 16) (width n : ℕ) :
    '.' ∉ (paddedDigits base width n).toList := by
  rw [paddedDigits, String.toList_ofList, List.leftpad, List.mem_append, not_or]
  refine ⟨fun h => ?_, point_not_mem_toDigits hb hb' n⟩
  exact absurd (List.eq_of_mem_replicate h) (by decide)

end Points

/-- The text is a term with the value. -/
def SpellsConstant (text : String) (value : Constant) : Prop :=
  ∃ e, Reads text [e] ∧ e.constant? = some value

/-- The text has hexadecimal digits, or else binary ones, for a word of the width. -/
def IsDigits (text : String) (width : ℕ) : Prop :=
  ∃ digits, text = (if 4 ∣ width then "#x" else "#b") ++ digits ∧
    digits.length = if 4 ∣ width then width / 4 else width

section Spelling

variable {n : ℕ}

theorem SpellsConstant.read {text : String} {value : Constant} (h : SpellsConstant text value) :
    (SExpr.read text).bind SExpr.constant? = some value := by
  obtain ⟨e, he, hvalue⟩ := h
  rw [he.read, Option.bind_some, hvalue]

theorem spellsConstant_bool (b : Bool) : SpellsConstant (toString b) (.truth b) := by
  have hword : IsWord (toString b) := by cases b <;> decide
  exact ⟨_, reads_word hword, by cases b <;> decide⟩

theorem constant?_numeral (n : ℕ) :
    SExpr.constant? (.atom (toString n)) = some (.integer n) := by
  have hpoint : '.' ∉ (toString n).toList := by
    rw [toList_toString]
    exact point_not_mem_toDigits (by omega) (by omega) n
  rw [SExpr.constant?, SExpr.decimal?_eq_none hpoint, numeral?_toString]
  rfl

theorem spellsConstant_intSmt (v : ℤ) : SpellsConstant (Literal.intSmt v) (.integer v) := by
  unfold Literal.intSmt
  split_ifs with hv
  · have htext : s!"(- {v.natAbs})" = "(" ++ ("-" ++ " " ++ toString v.natAbs) ++ ")" :=
      text_ext (by simp)
    have hvalue : -(v.natAbs : ℤ) = v := by omega
    refine ⟨.list [.atom "-", .atom (toString v.natAbs)], ?_, ?_⟩
    · rw [htext]
      exact reads_apply (by decide) (reads_word (isWord_toString _))
    · rw [SExpr.list, List.foldr, List.foldr, List.foldr, SExpr.constant?, constant?_numeral,
        Option.bind_some, Constant.neg?, hvalue]
  · have hvalue : (v.natAbs : ℤ) = v := by omega
    exact ⟨_, reads_word (isWord_toString _), by rw [constant?_numeral, hvalue]⟩

theorem spellsConstant_ratSmt (q : ℚ) : SpellsConstant (Literal.ratSmt q) (.rational q) :=
  ⟨_, reads_ratSmt q, SExpr.constant?_of_real? (real?_rational q)⟩

/-- A word of hexadecimal digits has four bits for each. -/
theorem spellsConstant_hex (x : BitVec n) (hn : 0 < n) (h : 4 ∣ n) :
    SpellsConstant ("#x" ++ paddedDigits 16 (n / 4) x.toNat) (.word x) ∧
      (paddedDigits 16 (n / 4) x.toNat).length = n / 4 := by
  have hlt : x.toNat < 16 ^ (n / 4) := by
    calc x.toNat < 2 ^ (4 * (n / 4)) := by rw [Nat.mul_div_cancel' h]; exact x.isLt
      _ = 16 ^ (n / 4) := Nat.pow_mul 2 4 (n / 4)
  have hlen := length_paddedDigits (by omega : 1 < 16) (by omega) hlt
  have hwidth : 4 * (paddedDigits 16 (n / 4) x.toNat).toList.length = n := by
    rw [String.length_toList, hlen, Nat.mul_div_cancel' h]
  have hword : IsWord ("#x" ++ paddedDigits 16 (n / 4) x.toNat) :=
    IsWord.append (by decide) (ordinary_paddedDigits (by omega) (by omega) _ _)
  have hpoint := point_not_mem_paddedDigits (by omega : 1 < 16) le_rfl (n / 4) x.toNat
  refine ⟨⟨_, reads_word hword, SExpr.constant?_of_vector? (by simp) (by simpa using hpoint) ?_⟩,
    hlen⟩
  have htext : ("#x" ++ paddedDigits 16 (n / 4) x.toNat).toList =
      '#' :: 'x' :: (paddedDigits 16 (n / 4) x.toNat).toList := by simp
  simp only [SExpr.vector?, htext, positional?_paddedDigits (by omega : 1 < 16) le_rfl,
    Option.map_some, Constant.word_ofNat x hwidth]

theorem spellsConstant_binary (x : BitVec n) (hn : 0 < n) :
    SpellsConstant ("#b" ++ paddedDigits 2 n x.toNat) (.word x) ∧
      (paddedDigits 2 n x.toNat).length = n := by
  have hlen := length_paddedDigits (by omega : 1 < 2) hn x.isLt
  have hword : IsWord ("#b" ++ paddedDigits 2 n x.toNat) :=
    IsWord.append (by decide) (ordinary_paddedDigits (by omega) (by omega) _ _)
  have hpoint := point_not_mem_paddedDigits (by omega : 1 < 2) (by omega) n x.toNat
  refine ⟨⟨_, reads_word hword, SExpr.constant?_of_vector? (by simp) (by simpa using hpoint) ?_⟩,
    hlen⟩
  have htext : ("#b" ++ paddedDigits 2 n x.toNat).toList =
      '#' :: 'b' :: (paddedDigits 2 n x.toNat).toList := by simp
  simp only [SExpr.vector?, htext, positional?_paddedDigits (by omega : 1 < 2) (by omega),
    Option.map_some, Constant.word_ofNat x (String.length_toList.trans hlen)]

theorem spellsConstant_wordSmt (signed : Bool) (x : BitVec n) (hn : 0 < n) :
    SpellsConstant (Literal.wordSmt n (reading signed x)) (.word x) ∧
      IsDigits (Literal.wordSmt n (reading signed x)) n := by
  have hdvd : (0 < n ∧ n % 4 = 0) ↔ 4 ∣ n := by omega
  rw [Literal.wordSmt, patternOf_reading, Int.natAbs_natCast, IsDigits]
  simp only [hdvd]
  split_ifs with h
  · have hspells := spellsConstant_hex x hn h
    exact ⟨hspells.1, _, rfl, hspells.2⟩
  · have hspells := spellsConstant_binary x hn
    exact ⟨hspells.1, _, rfl, hspells.2⟩

end Spelling

namespace Literal

/-- The value of a literal, the bits of a word being those of its two's complement. -/
def constant? : Literal → Option Constant
  | ⟨.bool, .bool b⟩ => some (.truth b)
  | ⟨.bitVec _ n, .int v⟩ => some (.word (BitVec.ofInt n v))
  | ⟨.int, .int v⟩ => some (.integer v)
  | ⟨.real, .real q⟩ => some (.rational q)
  | _ => none

/-- A well-formed literal of a theory that has exact constants: no float, and no word of no bits. -/
structure Exact (c : Literal) : Prop where
  wellFormed : c.WellFormed
  noFloat : c.kind.isFloat = false
  bits : ∀ signed n, c.kind = .bitVec signed n → 0 < n

variable {c d : Literal}

/-- A kind's literals have different values. -/
theorem Exact.eq_of_constant? (hc : c.Exact) (hd : d.Exact) (hkind : c.kind = d.kind)
    (h : c.constant? = d.constant?) : c = d := by
  obtain ⟨hwc, hfc, -⟩ := hc
  cases hwc.canonical with
  | float => cases hfc
  | bool b =>
    cases hd.wellFormed.canonical <;> cases hkind
    simpa [constant?] using h
  | int i =>
    cases hd.wellFormed.canonical <;> cases hkind
    simpa [constant?] using h
  | real q =>
    cases hd.wellFormed.canonical <;> cases hkind
    simpa [constant?] using h
  | @word s n v hv =>
    cases hd.wellFormed.canonical <;> cases hkind
    rename_i w hw
    have hbits : BitVec.ofInt n v = BitVec.ofInt n w := by simpa [constant?] using h
    rw [wrap_eq, hbits, ← wrap_eq, hw] at hv
    rw [hv]

theorem Exact.spells (hc : c.Exact) (mode : RoundingMode) :
    ∃ text value, c.smt mode = .ok text ∧ c.constant? = some value ∧ SpellsConstant text value ∧
      ∀ signed n, c.kind = .bitVec signed n → IsDigits text n := by
  obtain ⟨hw, hf, hbits⟩ := hc
  cases hw.canonical with
  | float => cases hf
  | bool b => exact ⟨_, _, rfl, rfl, spellsConstant_bool b, fun _ _ h => by cases h⟩
  | int i => exact ⟨_, _, rfl, rfl, spellsConstant_intSmt i, fun _ _ h => by cases h⟩
  | real q => exact ⟨_, _, rfl, rfl, spellsConstant_ratSmt q, fun _ _ h => by cases h⟩
  | @word s n v hv =>
    obtain ⟨x, rfl⟩ := exists_reading s hv
    obtain ⟨hspells, hdigits⟩ := spellsConstant_wordSmt s x (hbits s n rfl)
    refine ⟨_, .word x, rfl, ?_, hspells, fun _ _ h => ?_⟩
    · rw [constant?, ofInt_reading]
    · cases h
      exact hdigits

/-- A literal of a theory with exact constants reads as its value, whatever the rounding mode; a
word has the digits of its width; and only the same literal of the kind has the same text. -/
theorem text_reads_back (hc : c.Exact) (mode : RoundingMode) :
    ∃ text value, c.smt mode = .ok text ∧ c.constant? = some value ∧
      (SExpr.read text).bind SExpr.constant? = some value ∧
      (∀ signed n, c.kind = .bitVec signed n → IsDigits text n) ∧
      ∀ d mode', d.Exact → d.kind = c.kind → d.smt mode' = .ok text → d = c := by
  obtain ⟨text, value, htext, hvalue, hspells, hdigits⟩ := hc.spells mode
  refine ⟨text, value, htext, hvalue, hspells.read, hdigits, fun d mode' hd hkind hsame => ?_⟩
  obtain ⟨text', value', htext', hvalue', hspells', -⟩ := hd.spells mode'
  rw [htext', Except.ok.injEq] at hsame
  rw [hsame] at hspells'
  have hequal : some value' = some value := hspells'.read.symm.trans hspells.read
  exact hd.eq_of_constant? hc hkind (hvalue'.trans (hequal.trans hvalue.symm))

/-- Six bits of a negative word. -/
theorem text_reads_back_minusFive :
    (word true 6 (-5)).Exact ∧
    (SExpr.read "#b111011").bind SExpr.constant? = some (.word (-5#6)) ∧
    ∀ d mode', d.Exact → d.kind = .bitVec true 6 → d.smt mode' = .ok "#b111011" →
      d = word true 6 (-5) := by
  have hexact : (word true 6 (-5)).Exact :=
    ⟨word_wellFormed true 6 (-5), rfl, fun _ _ h => by cases h; decide⟩
  obtain ⟨text, value, htext, hvalue, hread, -, honly⟩ := text_reads_back hexact .towardZero
  have hspelled : (word true 6 (-5)).smt .towardZero = .ok "#b111011" := by decide
  cases htext.symm.trans hspelled
  cases hvalue
  exact ⟨hexact, hread, honly⟩

end Literal

end SmtLowering
