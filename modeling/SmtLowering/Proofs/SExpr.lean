import Mathlib.Tactic.SplitIfs
import Mathlib.Data.List.Basic

/-!
# S-expressions

`SExpr.read` reads a text character by character: blanks and parentheses end a word, parentheses
open and close a list. Comments, strings and quoted symbols are not known to it.

`Reads s es` says that a text adds the items `es` to the list at hand, whatever is around it. It is
closed under what texts are built by: words (`reads_word`), blanks between items (`Reads.blank`),
separators (`reads_intercalate`) and parentheses (`Reads.list`); and it decides what is read of the
text alone (`Reads.read`).
-/

namespace SmtLowering

/-- A list is a chain of pairs. -/
inductive SExpr
  | atom (s : String)
  | nil
  | cons (first rest : SExpr)
  deriving DecidableEq, Inhabited

/-- The character ends a word. -/
def endsWord (c : Char) : Bool := c = '(' || c = ')' || c.isWhitespace

/-- A reader has the word and the list at hand, latest first, and the lists around that one. -/
structure Reader where
  word : List Char
  items : List SExpr
  outer : List (List SExpr)

namespace SExpr

def list (es : List SExpr) : SExpr := es.foldr cons nil

end SExpr

namespace Reader

def endWord (r : Reader) : Reader :=
  if r.word = [] then r else ⟨[], .atom (String.ofList r.word.reverse) :: r.items, r.outer⟩

def step (r : Reader) (c : Char) : Option Reader :=
  if c = '(' then some ⟨[], [], r.endWord.items :: r.outer⟩
  else if c = ')' then
    match r.outer with
    | items :: outer => some ⟨[], .list r.endWord.items.reverse :: items, outer⟩
    | [] => none
  else if c.isWhitespace then some r.endWord
  else some { r with word := c :: r.word }

/-- The reader at the end of the text. -/
def run : List Char → Reader → Option Reader
  | [], r => some r.endWord
  | c :: cs, r => (r.step c).bind (run cs)

/-- The one item, if no list is open. -/
def result? : Reader → Option SExpr
  | ⟨_, [e], []⟩ => some e
  | _ => none

end Reader

/-- The one S-expression of a text. -/
def SExpr.read (text : String) : Option SExpr :=
  (Reader.run text.toList ⟨[], [], []⟩).bind Reader.result?

namespace Reader

variable {r : Reader} {c : Char} {cs rest : List Char} {items : List SExpr}
  {outer : List (List SExpr)}

theorem endWord_of_nil (items : List SExpr) (outer : List (List SExpr)) :
    endWord ⟨[], items, outer⟩ = ⟨[], items, outer⟩ := if_pos rfl

theorem endWord_endWord (r : Reader) : r.endWord.endWord = r.endWord := by
  by_cases h : r.word = []
  · have hr : r.endWord = r := if_pos h
    rw [hr, hr]
  · have hr : r.endWord = ⟨[], .atom (String.ofList r.word.reverse) :: r.items, r.outer⟩ :=
      if_neg h
    rw [hr, endWord_of_nil]

theorem endWord_outer (r : Reader) : r.endWord.outer = r.outer := by
  unfold endWord
  split_ifs <;> rfl

/-- What ends a word may as well find it ended. -/
theorem step_endWord (h : endsWord c = true) : r.endWord.step c = r.step c := by
  simp only [endsWord, Bool.or_eq_true, decide_eq_true_eq] at h
  unfold step
  rw [endWord_endWord, endWord_outer]
  by_cases hopen : c = '('
  · rw [if_pos hopen, if_pos hopen]
  by_cases hclose : c = ')'
  · rw [if_neg hopen, if_neg hopen, if_pos hclose, if_pos hclose]
  have hblank : c.isWhitespace = true := by
    rcases h with (h | h) | h
    · exact absurd h hopen
    · exact absurd h hclose
    · exact h
  rw [if_neg hopen, if_neg hclose, if_pos hblank, if_neg hopen, if_neg hclose, if_pos hblank]

/-- Nothing follows, or what ends a word. -/
def Ended (rest : List Char) : Prop := ∀ c ∈ rest.head?, endsWord c = true

theorem run_endWord (h : Ended rest) : run rest r.endWord = run rest r := by
  cases rest with
  | nil =>
    show some r.endWord.endWord = some r.endWord
    rw [endWord_endWord]
  | cons c cs =>
    have hc : endsWord c = true := h c (by simp)
    rw [run, run, step_endWord hc]

/-- Ordinary characters are put to the word at hand. -/
theorem run_word (h : ∀ c ∈ cs, endsWord c = false) (word : List Char) :
    run (cs ++ rest) ⟨word, items, outer⟩ = run rest ⟨cs.reverse ++ word, items, outer⟩ := by
  induction cs generalizing word with
  | nil => rfl
  | cons c cs ih =>
    have hc := h c List.mem_cons_self
    simp only [endsWord, Bool.or_eq_false_iff, decide_eq_false_iff_not] at hc
    obtain ⟨⟨hopen, hclose⟩, hblank⟩ := hc
    have hstep : step ⟨word, items, outer⟩ c = some ⟨c :: word, items, outer⟩ := by
      simp [step, hopen, hclose, hblank]
    rw [List.cons_append, run, hstep, Option.bind_some,
      ih fun d hd => h d (List.mem_cons_of_mem _ hd)]
    simp

theorem run_blank (h : c.isWhitespace = true) :
    run (c :: cs) ⟨[], items, outer⟩ = run cs ⟨[], items, outer⟩ := by
  have hopen : c ≠ '(' := by
    rintro rfl
    revert h
    decide
  have hclose : c ≠ ')' := by
    rintro rfl
    revert h
    decide
  rw [run, step, if_neg hopen, if_neg hclose, if_pos h, endWord_of_nil, Option.bind_some]

end Reader

/-- No character of the text ends a word. -/
def Ordinary (s : String) : Prop := ∀ c ∈ s.toList, endsWord c = false

/-- The text is one word. -/
def IsWord (s : String) : Prop := s ≠ "" ∧ Ordinary s

instance (s : String) : Decidable (Ordinary s) :=
  decidable_of_iff (s.toList.all fun c => !endsWord c) (by simp [Ordinary])

instance (s : String) : Decidable (IsWord s) := inferInstanceAs (Decidable (_ ∧ _))

theorem Ordinary.append {s t : String} (hs : Ordinary s) (ht : Ordinary t) : Ordinary (s ++ t) := by
  intro c hc
  rw [String.toList_append, List.mem_append] at hc
  rcases hc with hc | hc
  · exact hs c hc
  · exact ht c hc

theorem IsWord.append {s t : String} (hs : IsWord s) (ht : Ordinary t) : IsWord (s ++ t) :=
  ⟨fun h => hs.1 (String.append_eq_empty_iff.1 h).1, hs.2.append ht⟩

/-- The text adds the items to the list at hand, if what follows ends a word. -/
def Reads (s : String) (es : List SExpr) : Prop :=
  ∀ items outer rest, Reader.Ended rest →
    Reader.run (s.toList ++ rest) ⟨[], items, outer⟩ =
      Reader.run rest ⟨[], es.reverse ++ items, outer⟩

open Reader

variable {s t : String} {es fs : List SExpr}

theorem Reads.read {e : SExpr} (h : Reads s [e]) : SExpr.read s = some e := by
  have hrun := h [] [] [] (by simp [Ended])
  rw [List.append_nil] at hrun
  rw [SExpr.read, hrun]
  rfl

theorem reads_word (h : IsWord s) : Reads s [.atom s] := by
  intro items outer rest hrest
  have hne : s.toList.reverse ≠ [] := by
    rw [Ne, List.reverse_eq_nil_iff, String.toList_eq_nil_iff]
    exact h.1
  rw [run_word h.2, List.append_nil, ← run_endWord hrest]
  simp only [endWord, if_neg hne, List.reverse_reverse, String.ofList_toList]
  rfl

theorem reads_empty : Reads "" [] := fun _ _ _ _ => rfl

/-- Blanks may come first. -/
theorem Reads.indent {cs : List Char} (hs : s.toList = cs) (hcs : ∀ c ∈ cs, c.isWhitespace = true)
    (h : Reads t es) : Reads (s ++ t) es := by
  intro items outer rest hrest
  have key (ds : List Char) :
      run (cs ++ ds) ⟨[], items, outer⟩ = run ds ⟨[], items, outer⟩ := by
    clear hs
    induction cs with
    | nil => rfl
    | cons c cs ih =>
      rw [List.cons_append, run_blank (hcs c List.mem_cons_self),
        ih fun d hd => hcs d (List.mem_cons_of_mem _ hd)]
  rw [String.toList_append, hs, List.append_assoc, key, h items outer rest hrest]

/-- A blank stands between two items. -/
theorem Reads.blank {blank : String} {c : Char} (hb : blank.toList = [c])
    (hc : c.isWhitespace = true) (hs : Reads s es) (ht : Reads t fs) :
    Reads (s ++ blank ++ t) (es ++ fs) := by
  intro items outer rest hrest
  have hend : Ended (c :: (t.toList ++ rest)) := by simp [Ended, endsWord, hc]
  rw [String.toList_append, String.toList_append, hb]
  simp only [List.append_assoc, List.cons_append, List.nil_append]
  rw [hs items outer _ hend, run_blank hc, ht _ outer rest hrest]
  simp

theorem Reads.space (hs : Reads s es) (ht : Reads t fs) : Reads (s ++ " " ++ t) (es ++ fs) :=
  hs.blank rfl rfl ht

theorem Reads.line (hs : Reads s es) (ht : Reads t fs) : Reads (s ++ "\n" ++ t) (es ++ fs) :=
  hs.blank rfl rfl ht

/-- In parentheses the items are one list. -/
theorem Reads.list (h : Reads s es) : Reads ("(" ++ s ++ ")") [.list es] := by
  intro items outer rest _
  have hend : Ended (')' :: rest) := by simp [Ended, endsWord]
  have htext : ("(" ++ s ++ ")").toList ++ rest = '(' :: (s.toList ++ ')' :: rest) := by
    simp [String.toList_append]
  have hopen : step ⟨[], items, outer⟩ '(' = some ⟨[], [], items :: outer⟩ := rfl
  rw [htext, run, hopen, Option.bind_some, h [] (items :: outer) _ hend, List.append_nil]
  have hclose : step ⟨[], es.reverse, items :: outer⟩ ')' =
      some ⟨[], .list es.reverse.reverse :: items, outer⟩ := rfl
  rw [run, hclose, Option.bind_some, List.reverse_reverse]
  rfl

/-- A text of items with blanks in between. -/
theorem reads_intercalate {ss : List String} {es : List SExpr}
    (h : List.Forall₂ (fun s e => Reads s [e]) ss es) : Reads (" ".intercalate ss) es := by
  induction h with
  | nil => exact reads_empty
  | @cons s e ss es hs hss ih =>
    cases hss with
    | nil => exact hs
    | @cons s' e' ss es hs' hss =>
      rw [String.intercalate_cons_cons]
      exact hs.space ih

end SmtLowering
