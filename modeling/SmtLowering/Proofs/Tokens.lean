import Mathlib.Data.List.Count
import SmtLowering.Proofs.Spelling

/-!
# Words, lines and parentheses

The words of a text are what stands between blanks and parentheses, as the reader of S-expressions
takes them. A text that reads as S-expressions has balanced parentheses (`Reads.balanced`). Each
name of a node has a letter that no literal but a truth value is spelled with, so the words of the
others name no node (`NodeId.smtName_not_mem_words`).
-/

namespace SmtLowering

section Words

/-- The longest stretches of characters that do not end a word. -/
def wordsOf (cs : List Char) : List String :=
  ((cs.splitOnP endsWord).filter (· ≠ [])).map String.ofList

def words (s : String) : List String := wordsOf s.toList

variable {c : Char} {s : String}

theorem wordsOf_nil : wordsOf [] = [] := by
  simp [wordsOf]

/-- Nothing stretches over a character that ends a word. -/
theorem wordsOf_append_cons (as bs : List Char) (h : endsWord c = true) :
    wordsOf (as ++ c :: bs) = wordsOf as ++ wordsOf bs := by
  simp [wordsOf, List.splitOnP_append_cons as bs h]

theorem words_word (h : IsWord s) : words s = [s] := by
  have hne : s.toList ≠ [] := fun hnil => h.1 (String.toList_eq_nil_iff.1 hnil)
  simp [words, wordsOf, List.splitOnP_eq_singleton h.2, hne]

theorem words_space (s t : String) : words (s ++ " " ++ t) = words s ++ words t := by
  have hblank : endsWord ' ' = true := rfl
  simpa [words] using wordsOf_append_cons s.toList t.toList hblank

theorem words_line (s t : String) : words (s ++ "\n" ++ t) = words s ++ words t := by
  have hblank : endsWord '\n' = true := rfl
  simpa [words] using wordsOf_append_cons s.toList t.toList hblank

theorem words_parens (s : String) : words ("(" ++ s ++ ")") = words s := by
  have hopen := wordsOf_append_cons [] (s.toList ++ [')']) (rfl : endsWord '(' = true)
  have hclose := wordsOf_append_cons s.toList [] (rfl : endsWord ')' = true)
  rw [hclose, wordsOf_nil, List.append_nil, List.nil_append] at hopen
  simpa [words] using hopen

/-- Blanks may come first. -/
theorem words_indent {pad : String} (h : ∀ c ∈ pad.toList, c.isWhitespace = true) (s : String) :
    words (pad ++ s) = words s := by
  rw [words, words, String.toList_append]
  generalize pad.toList = cs at h
  induction cs with
  | nil => rfl
  | cons c cs ih =>
    have hc : endsWord c = true := by simp [endsWord, h c List.mem_cons_self]
    have hcons := wordsOf_append_cons [] (cs ++ s.toList) hc
    rw [List.nil_append, wordsOf_nil, List.nil_append] at hcons
    rw [List.cons_append, hcons, ih fun d hd => h d (List.mem_cons_of_mem _ hd)]

theorem mem_of_mem_splitOnP {α : Type} {p : α → Bool} {xs part : List α} {x : α}
    (hpart : part ∈ xs.splitOnP p) (hx : x ∈ part) : x ∈ xs := by
  induction xs generalizing part with
  | nil =>
    rw [List.splitOnP_nil, List.mem_singleton] at hpart
    rwa [hpart] at hx
  | cons y ys ih =>
    rw [List.splitOnP_cons_eq_if_modifyHead] at hpart
    split_ifs at hpart
    · rcases List.mem_cons.1 hpart with rfl | hpart
      · exact (List.not_mem_nil hx).elim
      · exact List.mem_cons_of_mem _ (ih hpart hx)
    · rcases hsplit : ys.splitOnP p with _ | ⟨head, parts⟩ <;> rw [hsplit] at hpart
      · exact (List.not_mem_nil hpart).elim
      · rcases List.mem_cons.1 hpart with rfl | hpart
        · rcases List.mem_cons.1 hx with rfl | hx
          · exact List.mem_cons_self
          · exact List.mem_cons_of_mem _ (ih (hsplit ▸ List.mem_cons_self) hx)
        · exact List.mem_cons_of_mem _ (ih (hsplit ▸ List.mem_cons_of_mem _ hpart) hx)

/-- A word is made of characters of the text. -/
theorem mem_of_mem_words {t : String} (h : s ∈ words t) (hc : c ∈ s.toList) : c ∈ t.toList := by
  obtain ⟨part, hpart, rfl⟩ := List.mem_map.1 h
  rw [String.toList_ofList] at hc
  exact mem_of_mem_splitOnP (List.mem_filter.1 hpart).1 hc

end Words

section Lines

def lines (s : String) : List String := (s.toList.splitOn '\n').map String.ofList

theorem newline_not_mem_of_isWord {s : String} (h : IsWord s) : '\n' ∉ s.toList := by
  intro hmem
  have hend := h.2 '\n' hmem
  revert hend
  decide

theorem lines_intercalate {ss : List String} (h : ∀ s ∈ ss, '\n' ∉ s.toList) (hne : ss ≠ []) :
    lines ("\n".intercalate ss) = ss := by
  have hsplit : (['\n'].intercalate (ss.map String.toList)).splitOn '\n' = ss.map String.toList :=
    List.splitOn_intercalate '\n' (by simpa using h) (by simpa using hne)
  have htext : "\n".toList = ['\n'] := rfl
  rw [lines, String.toList_intercalate, htext, hsplit]
  simp

end Lines

section Parentheses

/-- There are as many closing parentheses as opening ones, and nowhere more of them so far. -/
def Balanced (s : String) : Prop :=
  s.toList.count ')' = s.toList.count '(' ∧
    ∀ cs, cs <+: s.toList → cs.count ')' ≤ cs.count '('

/-- The reader has as many lists open as parentheses were opened and not closed. -/
theorem Reader.step_outer {r r' : Reader} {c : Char} (h : r.step c = some r') :
    r'.outer.length + [c].count ')' = r.outer.length + [c].count '(' := by
  unfold Reader.step at h
  split_ifs at h with hopen hclose hblank
  · cases h
    simp [hopen]
  · rcases houter : r.outer with _ | ⟨items, outer⟩ <;> rw [houter] at h
    · cases h
    · cases h
      simp [hclose]
  · cases h
    simp [Reader.endWord_outer, hopen, hclose]
  · cases h
    simp [hopen, hclose]

theorem Reader.run_outer {cs : List Char} {r r' : Reader} (h : Reader.run cs r = some r') :
    r'.outer.length + cs.count ')' = r.outer.length + cs.count '(' ∧
      ∀ ds, ds <+: cs → ds.count ')' ≤ r.outer.length + ds.count '(' := by
  induction cs generalizing r with
  | nil =>
    cases h
    refine ⟨by rw [Reader.endWord_outer]; rfl, fun ds hds => ?_⟩
    rw [List.prefix_nil.1 hds]
    exact Nat.zero_le _
  | cons c cs ih =>
    obtain ⟨u, hu, hrun⟩ := Option.bind_eq_some_iff.1 h
    have hstep := Reader.step_outer hu
    obtain ⟨hcount, hprefix⟩ := ih hrun
    have hsplit (ds : List Char) (d : Char) : (c :: ds).count d = [c].count d + ds.count d := by
      rw [← List.count_append, List.singleton_append]
    refine ⟨?_, fun ds hds => ?_⟩
    · rw [hsplit cs, hsplit cs]
      omega
    · rcases ds with _ | ⟨d, ds⟩
      · exact Nat.zero_le _
      · obtain ⟨rfl, htail⟩ := List.cons_prefix_cons.1 hds
        have hle := hprefix ds htail
        rw [hsplit ds, hsplit ds]
        omega

theorem Reads.balanced {s : String} {es : List SExpr} (h : Reads s es) : Balanced s := by
  have hrun := h [] [] [] (by simp [Reader.Ended])
  rw [List.append_nil] at hrun
  obtain ⟨hcount, hprefix⟩ := Reader.run_outer hrun
  refine ⟨?_, fun cs hcs => ?_⟩
  · rw [Reader.endWord_outer] at hcount
    simpa using hcount
  · simpa using hprefix cs hcs

end Parentheses

section Literals

/-- The characters of all literals but the truth values. -/
def isLiteralChar (c : Char) : Bool := "0123456789abcdefoprtxzAENPRTZ#+-./_() ".toList.contains c

def OfLiteral (s : String) : Prop := ∀ c ∈ s.toList, isLiteralChar c = true

instance (s : String) : Decidable (OfLiteral s) :=
  decidable_of_iff (s.toList.all isLiteralChar) (by simp [OfLiteral])

theorem ofLiteral_append {s t : String} : OfLiteral (s ++ t) ↔ OfLiteral s ∧ OfLiteral t := by
  simp only [OfLiteral, String.toList_append, List.mem_append, or_imp, forall_and]

theorem isLiteralChar_of_mem_toDigits {base n : Nat} (hb : 1 < base) (hb' : base ≤ 16) {c : Char}
    (hc : c ∈ Nat.toDigits base n) : isLiteralChar c = true := by
  have hdigits : ∀ d < 16, isLiteralChar (Nat.digitChar d) = true := by decide
  obtain ⟨d, hd, rfl⟩ := exists_digit_of_mem_toDigits hb hc
  exact hdigits d (by omega)

theorem ofLiteral_toString (n : Nat) : OfLiteral (toString n) := by
  intro c hc
  rw [toList_toString] at hc
  exact isLiteralChar_of_mem_toDigits (by omega) (by omega) hc

theorem ofLiteral_paddedDigits {base : Nat} (hb : 1 < base) (hb' : base ≤ 16) (width n : Nat) :
    OfLiteral (paddedDigits base width n) := by
  intro c hc
  rw [paddedDigits, String.toList_ofList, List.leftpad, List.mem_append] at hc
  rcases hc with hc | hc
  · rw [List.eq_of_mem_replicate hc]
    decide
  · exact isLiteralChar_of_mem_toDigits hb hb' hc

theorem ofLiteral_ratSmt (q : Rat) : OfLiteral (Literal.ratSmt q) := by
  have hmagnitude : OfLiteral (if q.den = 1 then s!"{q.num.natAbs}.0"
      else s!"(/ {q.num.natAbs}.0 {q.den}.0)") := by
    split_ifs
    all_goals
      simp only [toString_text, ofLiteral_append, ofLiteral_toString]
      decide
  unfold Literal.ratSmt
  simp only
  generalize (if q.den = 1 then _ else _ : String) = magnitude at hmagnitude
  split_ifs
  · simp only [toString_text, ofLiteral_append, hmagnitude]
    decide
  · exact hmagnitude

theorem ofLiteral_intSmt (v : Int) : OfLiteral (Literal.intSmt v) := by
  unfold Literal.intSmt
  split_ifs
  · simp only [toString_text, ofLiteral_append, ofLiteral_toString]
    decide
  · exact ofLiteral_toString _

theorem ofLiteral_wordSmt (width : Nat) (v : Int) : OfLiteral (Literal.wordSmt width v) := by
  unfold Literal.wordSmt
  simp only
  split_ifs
  · exact ofLiteral_append.2 ⟨by decide, ofLiteral_paddedDigits (by omega) (by omega) _ _⟩
  · exact ofLiteral_append.2 ⟨by decide, ofLiteral_paddedDigits (by omega) (by omega) _ _⟩

theorem ofLiteral_fpSmt (bits e f : Nat) : OfLiteral (Literal.fpSmt bits e f) := by
  have hpadded (width n : Nat) : OfLiteral (paddedDigits 2 width n) :=
    ofLiteral_paddedDigits (by omega) (by omega) width n
  unfold Literal.fpSmt
  simp only [toString_text, ofLiteral_append, ofLiteral_toString, hpadded]
  decide

theorem ofLiteral_floatSmt (exp sig : Nat) (x : Binary64) (mode : RoundingMode) :
    OfLiteral (Literal.floatSmt exp sig x mode) := by
  obtain ⟨sign, hsign⟩ : ∃ sign, sign = if x.negative then "-" else "+" := ⟨_, rfl⟩
  have hchars : OfLiteral sign := by
    rw [hsign]
    split_ifs <;> decide
  have hmode : OfLiteral mode.smt := by cases mode <;> decide
  unfold Literal.floatSmt
  simp only
  rw [← hsign]
  have htexts : OfLiteral s!"(_ NaN {exp} {sig})" ∧ OfLiteral s!"(_ {sign}oo {exp} {sig})" ∧
      OfLiteral s!"(_ {sign}zero {exp} {sig})" ∧
      OfLiteral s!"((_ to_fp {exp} {sig}) {mode.smt} {Literal.ratSmt x.toRat})" := by
    simp only [toString_text, ofLiteral_append, ofLiteral_toString, hchars, hmode, ofLiteral_ratSmt]
    decide
  split_ifs
  · exact htexts.1
  · exact htexts.2.1
  · exact htexts.2.2.1
  · exact ofLiteral_fpSmt _ _ _
  · exact ofLiteral_fpSmt _ _ _
  · exact htexts.2.2.2

/-- The node that a literal spelled like a truth value is taken for. -/
def Literal.truthNode? (c : Literal) : Option NodeId :=
  c.asBool?.map fun b => if b then NodeId.truth else NodeId.falsity

/-- A literal's text reads as one item, and is a truth value or of the literals' characters. -/
theorem Literal.smt_cases {c : Literal} {mode : RoundingMode} {text : String}
    (h : c.smt mode = .ok text) :
    (∃ e, Reads text [e]) ∧
      ((∃ b, c.asBool? = some b ∧ text = toString b) ∨ c.asBool? = none ∧ OfLiteral text) := by
  have hitem {text : String} (h : IsItem text) : ∃ e, Reads text [e] := h.imp fun _ h => h.1
  obtain ⟨kind, payload⟩ := c
  cases payload with
  | bool b =>
    cases h
    exact ⟨⟨_, reads_word (by cases b <;> decide)⟩, .inl ⟨b, rfl, rfl⟩⟩
  | int v =>
    cases kind with
    | bitVec signed width =>
      cases h
      exact ⟨hitem (isItem_wordSmt width v), .inr ⟨rfl, ofLiteral_wordSmt width v⟩⟩
    | _ =>
      cases h
      exact ⟨hitem (isItem_intSmt v), .inr ⟨rfl, ofLiteral_intSmt v⟩⟩
  | real q =>
    cases h
    exact ⟨⟨_, reads_ratSmt q⟩, .inr ⟨rfl, ofLiteral_ratSmt q⟩⟩
  | float x =>
    cases kind with
    | float exp sig =>
      cases h
      exact ⟨hitem (isItem_floatSmt exp sig x mode), .inr ⟨rfl, ofLiteral_floatSmt exp sig x mode⟩⟩
    | _ => cases h

end Literals

section Names

namespace NodeId

variable {level n : Nat} {s : String}

theorem not_ofLiteral_smtName (level n : Nat) : ¬OfLiteral (smtName level n) := by
  refine smtName_cases (P := fun s => ¬OfLiteral s) (by decide) (by decide) ?_
  rw [ofLiteral_append]
  refine fun h => absurd (h.1 's' ?_) (by decide)
  split_ifs <;> simp

theorem smtName_not_mem_words (h : OfLiteral s) : smtName level n ∉ words s :=
  fun hmem => not_ofLiteral_smtName level n fun _ hc => h _ (mem_of_mem_words hmem hc)

/-- The names end in a digit but for the truth values, other words of a body do not. -/
theorem smtName_not_mem_operators : smtName level n ∉ "let" :: theoryNames.drop 2 := by
  refine smtName_cases (P := fun s => s ∉ "let" :: theoryNames.drop 2) (by decide) (by decide) ?_
  have hlast : ∀ f ∈ "let" :: theoryNames.drop 2, f.toList.getLast?.all Char.isDigit = false := by
    decide
  intro hmem
  have hdigits := hlast _ hmem
  rw [String.toList_append, toList_toString,
    List.getLast?_append_of_ne_nil _ Nat.toDigits_ne_nil,
    List.getLast?_eq_some_getLast Nat.toDigits_ne_nil, Option.all_some,
    Nat.isDigit_of_mem_toDigits (by omega) (by omega) (List.getLast_mem _)] at hdigits
  cases hdigits

theorem count_smtName (level : Nat) (ns : List NodeId) (n : NodeId) :
    (ns.map (smtName level)).count (smtName level n) = ns.count n :=
  List.count_map_of_injective ns _ (fun _ _ => smtName_injective) n

end NodeId

end Names

end SmtLowering
