import SmtLowering.Literal.Smt
import SmtLowering.Proofs.Symbols

/-!
# Spelled literals and names

What the texts of numbers, names, kinds and literals read as. A literal reads as one S-expression
that is no `let` (`Literal.isItem_smt`), so it cannot be taken for a chain of bindings. The names of
nodes are words, from which the level and the number can be told (`NodeId.smtName_eq_iff`).
-/

namespace SmtLowering

section Digits

theorem endsWord_digitChar {d : Nat} (h : d < 16) : endsWord (Nat.digitChar d) = false := by
  revert d
  decide

theorem exists_digit_of_mem_toDigits {base n : Nat} (hb : 1 < base) {c : Char}
    (hc : c ∈ Nat.toDigits base n) : ∃ d < base, c = Nat.digitChar d := by
  induction n using Nat.strong_induction_on with
  | _ n ih =>
    rw [Nat.toDigits_eq_if hb] at hc
    split_ifs at hc with hn
    · exact ⟨n, hn, List.mem_singleton.1 hc⟩
    · rcases List.mem_append.1 hc with hc | hc
      · exact ih (n / base) (Nat.div_lt_self (by omega) hb) hc
      · exact ⟨n % base, Nat.mod_lt n (by omega), List.mem_singleton.1 hc⟩

theorem endsWord_of_mem_toDigits {base n : Nat} (hb : 1 < base) (hb' : base ≤ 16) {c : Char}
    (hc : c ∈ Nat.toDigits base n) : endsWord c = false := by
  obtain ⟨d, hd, rfl⟩ := exists_digit_of_mem_toDigits hb hc
  exact endsWord_digitChar (by omega)

theorem toList_toString (n : Nat) : (toString n).toList = Nat.toDigits 10 n := by
  rw [Nat.toString_eq_repr, Nat.toList_repr]

theorem isWord_toString (n : Nat) : IsWord (toString n) := by
  refine ⟨fun h => ?_, fun c hc => ?_⟩
  · have hnil : (toString n).toList = [] := by rw [h]; rfl
    rw [toList_toString] at hnil
    exact Nat.toDigits_ne_nil hnil
  · rw [toList_toString] at hc
    exact endsWord_of_mem_toDigits (by omega) (by omega) hc

theorem toString_injective {n m : Nat} (h : toString n = toString m) : n = m := by
  have hdigits : Nat.toDigits 10 n = Nat.toDigits 10 m := by
    rw [← toList_toString, ← toList_toString, h]
  have hn := Nat.ofDigitChars_ten_toDigits (n := n)
  rw [hdigits, Nat.ofDigitChars_ten_toDigits] at hn
  exact hn.symm

theorem numeral?_toString (n : Nat) : SExpr.numeral? (toString n) = some n := by
  have hall : (Nat.toDigits 10 n).all Char.isDigit = true := by
    rw [List.all_eq_true]
    intro c hc
    exact Nat.isDigit_of_mem_toDigits (by omega) (by omega) hc
  rw [SExpr.numeral?, toList_toString, if_pos ⟨Nat.toDigits_ne_nil, hall⟩,
    Nat.ofDigitChars_ten_toDigits]

theorem ordinary_paddedDigits {base : Nat} (hb : 1 < base) (hb' : base ≤ 16) (width n : Nat) :
    Ordinary (paddedDigits base width n) := by
  intro c hc
  rw [paddedDigits, String.toList_ofList, List.leftpad, List.mem_append] at hc
  rcases hc with hc | hc
  · rw [List.eq_of_mem_replicate hc]
    decide
  · exact endsWord_of_mem_toDigits hb hb' hc

end Digits

/-- The text is one S-expression, and no `let`. -/
def IsItem (s : String) : Prop := ∃ e, Reads s [e] ∧ ∀ args, e ≠ .cons (.atom "let") args

section Items

variable {s t f : String} {es : List SExpr}

@[simp]
theorem toString_text (s : String) : toString s = s := rfl

/-- Texts of the same characters. -/
theorem text_ext (h : s.toList = t.toList) : s = t := String.toList_inj.1 h

theorem isItem_word (h : IsWord s) : IsItem s := ⟨_, reads_word h, fun _ h => by cases h⟩

theorem reads_apply (hf : IsWord f) (h : Reads s es) :
    Reads ("(" ++ (f ++ " " ++ s) ++ ")") [.list (.atom f :: es)] := ((reads_word hf).space h).list

theorem isItem_apply (hf : IsWord f) (hlet : f ≠ "let") (h : Reads s es) :
    IsItem ("(" ++ (f ++ " " ++ s) ++ ")") := by
  refine ⟨_, reads_apply hf h, fun args he => hlet ?_⟩
  cases he
  rfl

theorem isItem_intSmt (v : Int) : IsItem (Literal.intSmt v) := by
  unfold Literal.intSmt
  split_ifs
  · have htext : s!"(- {v.natAbs})" = "(" ++ ("-" ++ " " ++ toString v.natAbs) ++ ")" :=
      text_ext (by simp)
    rw [htext]
    exact isItem_apply (by decide) (by decide) (reads_word (isWord_toString _))
  · exact isItem_word (isWord_toString _)

theorem isWord_decimal (n : Nat) : IsWord (toString n ++ ".0") :=
  (isWord_toString n).append (by decide)

/-- A quotient of decimals, or the numerator alone over one. -/
def SExpr.quotient (n d : Nat) : SExpr :=
  if d = 1 then .atom (toString n ++ ".0")
  else .list [.atom "/", .atom (toString n ++ ".0"), .atom (toString d ++ ".0")]

def SExpr.rational (q : Rat) : SExpr :=
  if q.num < 0 then .list [.atom "-", .quotient q.num.natAbs q.den]
  else .quotient q.num.natAbs q.den

theorem reads_quotient (n d : Nat) :
    Reads (if d = 1 then s!"{n}.0" else s!"(/ {n}.0 {d}.0)") [.quotient n d] := by
  unfold SExpr.quotient
  split_ifs
  · exact reads_word (isWord_decimal _)
  · have htext : s!"(/ {n}.0 {d}.0)" =
        "(" ++ ("/" ++ " " ++ ((toString n ++ ".0") ++ " " ++ (toString d ++ ".0"))) ++ ")" :=
      text_ext (by simp)
    rw [htext]
    exact reads_apply (by decide)
      ((reads_word (isWord_decimal _)).space (reads_word (isWord_decimal _)))

theorem reads_ratSmt (q : Rat) : Reads (Literal.ratSmt q) [.rational q] := by
  have hmagnitude := reads_quotient q.num.natAbs q.den
  unfold Literal.ratSmt SExpr.rational
  simp only
  generalize (if q.den = 1 then _ else _ : String) = magnitude at hmagnitude
  split_ifs
  · have htext : s!"(- {magnitude})" = "(" ++ ("-" ++ " " ++ magnitude) ++ ")" :=
      text_ext (by simp)
    rw [htext]
    exact reads_apply (by decide) hmagnitude
  · exact hmagnitude

theorem isItem_ratSmt (q : Rat) : IsItem (Literal.ratSmt q) := by
  refine ⟨_, reads_ratSmt q, fun args => ?_⟩
  unfold SExpr.rational SExpr.quotient
  split_ifs <;> simp [SExpr.list]

theorem isItem_wordSmt (width : Nat) (v : Int) : IsItem (Literal.wordSmt width v) := by
  have hx : IsWord "#x" := by decide
  have hb : IsWord "#b" := by decide
  unfold Literal.wordSmt
  simp only
  split_ifs
  · exact isItem_word (hx.append (ordinary_paddedDigits (by omega) (by omega) _ _))
  · exact isItem_word (hb.append (ordinary_paddedDigits (by omega) (by omega) _ _))

theorem reads_fpSmt (bits e f : Nat) :
    Reads (Literal.fpSmt bits e f)
      [.list [.atom "fp", .atom ("#b" ++ toString (bits / modulus (e + f) % 2)),
        .atom ("#b" ++ paddedDigits 2 e (bits / modulus f % modulus e)),
        .atom ("#b" ++ paddedDigits 2 f (bits % modulus f))]] := by
  have hb : IsWord "#b" := by decide
  have hpadded (width n : Nat) : IsWord ("#b" ++ paddedDigits 2 width n) :=
    hb.append (ordinary_paddedDigits (by omega) (by omega) _ _)
  have hsign : IsWord ("#b" ++ toString (bits / modulus (e + f) % 2)) :=
    hb.append (isWord_toString _).2
  have htext : Literal.fpSmt bits e f =
      "(" ++ ("fp" ++ " " ++ (("#b" ++ toString (bits / modulus (e + f) % 2)) ++ " " ++
        ("#b" ++ paddedDigits 2 e (bits / modulus f % modulus e)) ++ " " ++
        ("#b" ++ paddedDigits 2 f (bits % modulus f)))) ++ ")" :=
    text_ext (by simp [Literal.fpSmt])
  rw [htext]
  exact reads_apply (by decide)
    (((reads_word hsign).space (reads_word (hpadded _ _))).space (reads_word (hpadded _ _)))

theorem isItem_fpSmt (bits e f : Nat) : IsItem (Literal.fpSmt bits e f) :=
  ⟨_, reads_fpSmt bits e f, fun _ h => by simp [SExpr.list] at h⟩

/-- An indexed symbol. -/
def SExpr.indexed (f : String) (indices : List Nat) : SExpr :=
  .list (.atom "_" :: .atom f :: indices.map fun i => .atom (toString i))

def indexedText (f : String) (indices : List Nat) : String :=
  "(" ++ " ".intercalate ("_" :: f :: indices.map toString) ++ ")"

theorem reads_indexed (hf : IsWord f) (indices : List Nat) :
    Reads (indexedText f indices) [.indexed f indices] := by
  have hunderscore : IsWord "_" := by decide
  refine (reads_intercalate (.cons (reads_word hunderscore) (.cons (reads_word hf) ?_))).list
  rw [List.forall₂_map_left_iff, List.forall₂_map_right_iff, List.forall₂_same]
  exact fun i _ => reads_word (isWord_toString i)

@[simp]
theorem toList_indexedText_one (f : String) (i : Nat) :
    (indexedText f [i]).toList =
      "(_ ".toList ++ (f.toList ++ ' ' :: ((toString i).toList ++ [')'])) := by
  simp [indexedText, String.intercalate_cons_cons]

@[simp]
theorem toList_indexedText_two (f : String) (i j : Nat) :
    (indexedText f [i, j]).toList =
      "(_ ".toList ++
        (f.toList ++ ' ' :: ((toString i).toList ++ ' ' :: ((toString j).toList ++ [')']))) := by
  simp [indexedText, String.intercalate_cons_cons]

/-- What has the characters of an indexed symbol reads as one. -/
theorem reads_indexed_of (hf : IsWord f) (indices : List Nat)
    (h : s.toList = (indexedText f indices).toList) : Reads s [.indexed f indices] := by
  rw [text_ext h]
  exact reads_indexed hf indices

theorem isItem_indexed (hf : IsWord f) (indices : List Nat)
    (h : s.toList = (indexedText f indices).toList) : IsItem s :=
  ⟨_, reads_indexed_of hf indices h, fun _ h => by simp [SExpr.indexed, SExpr.list] at h⟩

theorem reads_toFp (exp sig : Nat) (mode : RoundingMode) (q : Rat) :
    Reads s!"((_ to_fp {exp} {sig}) {mode.smt} {Literal.ratSmt q})"
      [.list [.indexed "to_fp" [exp, sig], .atom mode.smt, .rational q]] := by
  have hmode : IsWord mode.smt := by cases mode <;> decide
  have hname : IsWord "to_fp" := by decide
  have htext : s!"((_ to_fp {exp} {sig}) {mode.smt} {Literal.ratSmt q})" =
      "(" ++ (indexedText "to_fp" [exp, sig] ++ " " ++ mode.smt ++ " " ++ Literal.ratSmt q) ++
        ")" :=
    text_ext (by simp)
  rw [htext]
  exact (((reads_indexed hname [exp, sig]).space (reads_word hmode)).space (reads_ratSmt q)).list

theorem isItem_toFp (exp sig : Nat) (mode : RoundingMode) (q : Rat) :
    IsItem s!"((_ to_fp {exp} {sig}) {mode.smt} {Literal.ratSmt q})" :=
  ⟨_, reads_toFp exp sig mode q, fun _ h => by simp [SExpr.list, SExpr.indexed] at h⟩

theorem isItem_floatSmt (exp sig : Nat) (x : Binary64) (mode : RoundingMode) :
    IsItem (Literal.floatSmt exp sig x mode) := by
  obtain ⟨sign, hsign⟩ : ∃ sign, sign = if x.negative then "-" else "+" := ⟨_, rfl⟩
  have hword : IsWord sign := by
    rw [hsign]
    split_ifs <;> decide
  have hnan : IsWord "NaN" := by decide
  have hoo : IsWord (sign ++ "oo") := hword.append (by decide)
  have hzero : IsWord (sign ++ "zero") := hword.append (by decide)
  unfold Literal.floatSmt
  simp only
  rw [← hsign]
  split_ifs
  · exact isItem_indexed hnan [exp, sig] (by simp)
  · exact isItem_indexed hoo [exp, sig] (by simp)
  · exact isItem_indexed hzero [exp, sig] (by simp)
  · exact isItem_fpSmt _ _ _
  · exact isItem_fpSmt _ _ _
  · exact isItem_toFp exp sig mode _

/-- The text of a well-formed literal. -/
theorem Literal.isItem_smt {c : Literal} (h : c.WellFormed) (mode : RoundingMode) :
    ∃ text, c.smt mode = .ok text ∧ IsItem text := by
  cases h.canonical with
  | bool b => exact ⟨_, rfl, isItem_word (by cases b <;> decide)⟩
  | @word s w v => exact ⟨_, rfl, isItem_wordSmt w v⟩
  | int i => exact ⟨_, rfl, isItem_intSmt i⟩
  | real q => exact ⟨_, rfl, isItem_ratSmt q⟩
  | float exp sig x => exact ⟨_, rfl, isItem_floatSmt exp sig x mode⟩

end Items

namespace NodeId

variable {level k l n m : Nat}

theorem smtName_zero (level : Nat) : smtName level 0 = "false" := rfl

theorem smtName_one (level : Nat) : smtName level 1 = "true" := rfl

theorem smtName_of_two_le (h : 2 ≤ n) :
    smtName level n = (if level = 0 then "s" else s!"l{level}_s") ++ toString n := by
  have h0 : n ≠ falsity := by
    show n ≠ 0
    omega
  have h1 : n ≠ truth := by
    show n ≠ 1
    omega
  rw [smtName, if_neg h0, if_neg h1]
  split_ifs
  · rfl
  · exact text_ext (by simp)

/-- The truth values have names of their own, all other nodes are numbered. -/
theorem smtName_cases {P : String → Prop} (hfalse : P "false") (htrue : P "true")
    (hrest : P ((if level = 0 then "s" else s!"l{level}_s") ++ toString n)) :
    P (smtName level n) := by
  by_cases h0 : n = 0
  · rw [h0, smtName_zero]
    exact hfalse
  by_cases h1 : n = 1
  · rw [h1, smtName_one]
    exact htrue
  rw [smtName_of_two_le (by omega)]
  exact hrest

/-- Names of nodes start with these letters, which tell the truth values from one another and from
the rest. -/
theorem head_smtName (level n : Nat) :
    (smtName level n).toList.head? =
      if n = 0 then some 'f' else if n = 1 then some 't'
      else if level = 0 then some 's' else some 'l' := by
  by_cases h0 : n = 0
  · rw [h0, smtName_zero]
    simp
  by_cases h1 : n = 1
  · rw [h1, smtName_one]
    simp
  rw [if_neg h0, if_neg h1, smtName_of_two_le (by omega)]
  split_ifs
  · simp
  · simp

theorem isTruthValue_iff : isTruthValue n = true ↔ n < 2 := by
  simp only [isTruthValue, Bool.or_eq_true, beq_iff_eq]
  show n = 0 ∨ n = 1 ↔ n < 2
  omega

theorem underscore_not_mem_toDigits (n : Nat) : '_' ∉ Nat.toDigits 10 n := by
  intro h
  have hdigit := Nat.isDigit_of_mem_toDigits (by omega) (by omega) h
  revert hdigit
  decide

/-- The digits of the level end at the underscore, so level and number can be told apart. -/
theorem levelled_injective (h : s!"l{k}_s" ++ toString m = s!"l{l}_s" ++ toString n) :
    k = l ∧ m = n := by
  have htext (level n : Nat) : (s!"l{level}_s" ++ toString n).toList =
      'l' :: (Nat.toDigits 10 level ++ '_' :: 's' :: Nat.toDigits 10 n) := by simp
  have hlist := congrArg String.toList h
  rw [htext, htext, List.cons_inj_right,
    List.append_cons_inj_of_notMem (underscore_not_mem_toDigits k)
      (List.not_mem_cons_of_ne_of_not_mem (by decide) (underscore_not_mem_toDigits m)),
    List.cons_inj_right] at hlist
  simp only [← toList_toString, String.toList_inj] at hlist
  exact ⟨toString_injective hlist.1, toString_injective hlist.2.2⟩

/-- Two nodes of one name are the same truth value, or neither is one, and then both are of the
outermost level or neither is. -/
theorem cases_of_smtName_eq (h : smtName k m = smtName l n) :
    m = n ∧ m < 2 ∨ 2 ≤ m ∧ 2 ≤ n ∧ (k = 0 ↔ l = 0) := by
  have hhead := congrArg (fun s : String => s.toList.head?) h
  simp only [head_smtName] at hhead
  split_ifs at hhead <;> first | omega | simp at hhead

/-- Nodes have one name exactly if they are one node of one level, or the same truth value. -/
theorem smtName_eq_iff (k l : Nat) (m n : NodeId) :
    smtName k m = smtName l n ↔ m = n ∧ (m.isTruthValue = true ∨ k = l) := by
  rw [isTruthValue_iff]
  constructor
  · intro h
    rcases cases_of_smtName_eq h with ⟨heq, htruth⟩ | ⟨hm, hn, hlevels⟩
    · exact ⟨heq, .inl htruth⟩
    · rw [smtName_of_two_le hm, smtName_of_two_le hn] at h
      by_cases hk : k = 0
      · rw [if_pos hk, if_pos (hlevels.1 hk), String.append_right_inj] at h
        exact ⟨toString_injective h, .inr (hk.trans (hlevels.1 hk).symm)⟩
      · rw [if_neg hk, if_neg (mt hlevels.2 hk)] at h
        obtain ⟨hlevel, hnumber⟩ := levelled_injective h
        exact ⟨hnumber, .inr hlevel⟩
  · rintro ⟨rfl, htruth | rfl⟩
    · rcases Nat.le_one_iff_eq_zero_or_eq_one.1 (Nat.le_of_lt_succ htruth) with rfl | rfl
      · rfl
      · rfl
    · rfl

theorem smtName_injective (h : smtName level n = smtName level m) : n = m :=
  ((smtName_eq_iff level level n m).1 h).1

theorem isWord_smtName (level n : Nat) : IsWord (smtName level n) := by
  have hpre : IsWord (if level = 0 then "s" else s!"l{level}_s") := by
    split_ifs
    · decide
    · have hl : IsWord "l" := by decide
      have htext : s!"l{level}_s" = "l" ++ toString level ++ "_s" :=
        text_ext (by simp)
      rw [htext]
      exact (hl.append (isWord_toString level).2).append (by decide)
  exact smtName_cases (by decide) (by decide) (hpre.append (isWord_toString n).2)

end NodeId

/-- A text that does not start like a word in binary digits is none. -/
theorem SExpr.binary?_eq_none {s : String} (h : s.toList.head? ≠ some '#') :
    SExpr.binary? s = none := by
  unfold SExpr.binary?
  split
  · rename_i hs
    rw [hs] at h
    exact absurd rfl h
  · rfl

theorem NodeId.binary?_smtName (level : Nat) (n : NodeId) :
    SExpr.binary? (smtName level n) = none := by
  apply SExpr.binary?_eq_none
  rw [NodeId.head_smtName]
  split_ifs <;> decide

section Symbols

def isSymbolChar (c : Char) : Bool := c.isAlphanum || "~!@$%^&*_-+=<>.?/".toList.contains c

def reservedWords : List String :=
  ["BINARY", "DECIMAL", "HEXADECIMAL", "NUMERAL", "STRING", "_", "!", "as", "let", "exists",
    "forall", "match", "par"]

/-- A symbol that needs no quotes. -/
structure IsSymbol (s : String) : Prop where
  nonempty : s ≠ ""
  chars : s.toList.all isSymbolChar = true
  start : s.toList.head?.all (fun c => !c.isDigit) = true
  free : s ∉ reservedWords

theorem endsWord_of_isSymbolChar {c : Char} (h : isSymbolChar c = true) : endsWord c = false := by
  rw [Bool.eq_false_iff]
  intro hend
  simp only [endsWord, Char.isWhitespace, Bool.or_eq_true, decide_eq_true_eq] at hend
  rcases hend with (rfl | rfl) | (((rfl | rfl) | rfl) | rfl) <;> revert h <;> decide

variable {s : String}

theorem IsSymbol.isWord (h : IsSymbol s) : IsWord s :=
  ⟨h.nonempty, fun c hc => endsWord_of_isSymbolChar (List.all_eq_true.1 h.chars c hc)⟩

theorem IsSymbol.ne_let (h : IsSymbol s) : s ≠ "let" := by
  rintro rfl
  exact h.free (by decide)

theorem IsSymbol.binary?_eq_none (h : IsSymbol s) : SExpr.binary? s = none := by
  refine SExpr.binary?_eq_none fun hs => ?_
  have hc := List.all_eq_true.1 h.chars '#' (List.mem_of_head? hs)
  revert hc
  decide

/-- The sorts that the kind names are symbols. -/
def Kind.Named : Kind → Prop
  | .array key value => key.Named ∧ value.Named
  | .uninterpreted name => IsSymbol name
  | _ => True

theorem Kind.reads_smtSort {k : Kind} (h : k.Named) : ∃ e, Reads k.smtSort [e] := by
  have hword {f : String} (hf : IsWord f) : ∃ e, Reads f [e] := ⟨_, reads_word hf⟩
  induction k with
  | bool => exact hword (by decide)
  | int => exact hword (by decide)
  | real => exact hword (by decide)
  | uninterpreted name => exact hword (IsSymbol.isWord h)
  | bitVec signed width =>
    have h : Reads s!"(_ BitVec {width})" [.indexed "BitVec" [width]] :=
      reads_indexed_of (by decide) [width] (by simp)
    exact ⟨_, h⟩
  | float exp sig =>
    have h : Reads s!"(_ FloatingPoint {exp} {sig})" [.indexed "FloatingPoint" [exp, sig]] :=
      reads_indexed_of (by decide) [exp, sig] (by simp)
    exact ⟨_, h⟩
  | array key value ihk ihv =>
    obtain ⟨ek, hk⟩ := ihk h.1
    obtain ⟨ev, hv⟩ := ihv h.2
    have htext : s!"(Array {key.smtSort} {value.smtSort})" =
        "(" ++ ("Array" ++ " " ++ (key.smtSort ++ " " ++ value.smtSort)) ++ ")" :=
      text_ext (by simp)
    obtain ⟨e, he, -⟩ := isItem_apply (by decide : IsWord "Array") (by decide) (hk.space hv)
    rw [← htext] at he
    exact ⟨e, he⟩

end Symbols

end SmtLowering
