import SmtLowering.Proofs.SharedText

/-!
# Labels of constraints

A text may have comments, which end at a line feed or a carriage return (`uncommented?`). A
constraint's label stands in the comment of its first line and nowhere else, so whatever it is, the
commands are the same single assertion (`World.label_inert`). What follows the comments has no
character that opens a comment, a string or a quoted symbol (`Plain`).
-/

namespace SmtLowering

section Comments

def isLineEnd (c : Char) : Bool := c = '\n' || c = '\r'

/-- The text without its comments, `none` if there are strings or quoted symbols outside of them.
The line end is not of the comment. -/
def uncommented? (inComment : Bool) : List Char → Option (List Char)
  | [] => some []
  | c :: cs =>
    if inComment then
      if isLineEnd c then (uncommented? false cs).map (c :: ·) else uncommented? true cs
    else if c = ';' then uncommented? true cs
    else if c = '"' ∨ c = '|' then none
    else (uncommented? false cs).map (c :: ·)

/-- The items of a text with comments, if no list is open at its end. -/
def SExpr.commands? (text : String) : Option (List SExpr) :=
  (uncommented? false text.toList).bind fun cs =>
    (Reader.run cs ⟨[], [], []⟩).bind fun r =>
      if r.outer = [] then some r.items.reverse else none

/-- The text is one line that a semicolon makes a comment. -/
def IsComment (s : String) : Prop :=
  s.toList.head? = some ';' ∧ ∀ c ∈ s.toList, isLineEnd c = false

variable {cs ds : List Char} {s : String}

theorem uncommented?_comment (h : ∀ c ∈ cs, isLineEnd c = false) :
    uncommented? true (cs ++ '\n' :: ds) = (uncommented? false ds).map ('\n' :: ·) := by
  induction cs with
  | nil => rfl
  | cons c cs ih =>
    have hc := h c List.mem_cons_self
    rw [List.cons_append, uncommented?, if_pos rfl, hc, if_neg Bool.false_ne_true,
      ih fun d hd => h d (List.mem_cons_of_mem _ hd)]

/-- A line of comment leaves the line end. -/
theorem commands?_comment (h : IsComment s) (rest : String) :
    SExpr.commands? (s ++ "\n" ++ rest) = SExpr.commands? rest := by
  obtain ⟨hhead, hline⟩ := h
  obtain ⟨cs, hcs⟩ := List.head?_eq_some_iff.1 hhead
  have htext : (s ++ "\n" ++ rest).toList = ';' :: (cs ++ '\n' :: rest.toList) := by
    simp [hcs]
  rw [hcs] at hline
  have hstrip : uncommented? false (s ++ "\n" ++ rest).toList =
      (uncommented? false rest.toList).map ('\n' :: ·) := by
    rw [htext, uncommented?, if_neg Bool.false_ne_true, if_pos rfl,
      uncommented?_comment fun c hc => hline c (List.mem_cons_of_mem _ hc)]
  rw [SExpr.commands?, hstrip, SExpr.commands?]
  cases uncommented? false rest.toList with
  | none => rfl
  | some ds =>
    show (Reader.run ('\n' :: ds) ⟨[], [], []⟩).bind _ = (Reader.run ds ⟨[], [], []⟩).bind _
    rw [Reader.run_blank rfl]

/-- The characters of joined texts are theirs and the separator's. -/
theorem chars_intercalate {p : Char → Prop} {separator : String}
    (hsep : ∀ c ∈ separator.toList, p c) {ss : List String} (h : ∀ s ∈ ss, ∀ c ∈ s.toList, p c) :
    ∀ c ∈ (separator.intercalate ss).toList, p c := by
  induction ss with
  | nil => exact fun _ hc => by simp at hc
  | cons s ss ih =>
    have hs := h s List.mem_cons_self
    cases ss with
    | nil => simpa using hs
    | cons t ss =>
      have hrest := ih fun u hu => h u (List.mem_cons_of_mem _ hu)
      rw [String.intercalate_cons_cons, String.toList_append, String.toList_append]
      exact List.forall_mem_append.2 ⟨List.forall_mem_append.2 ⟨hs, hsep⟩, hrest⟩

theorem isComment_append {start : String} (hstart : IsComment start)
    (h : ∀ c ∈ s.toList, isLineEnd c = false) : IsComment (start ++ s) := by
  obtain ⟨cs, hcs⟩ := List.head?_eq_some_iff.1 hstart.1
  refine ⟨by rw [String.toList_append, hcs]; rfl, ?_⟩
  rw [String.toList_append]
  exact List.forall_mem_append.2 ⟨hstart.2, h⟩

end Comments

/-- No character opens a comment, a string or a quoted symbol. -/
def Plain (s : String) : Prop := ∀ c ∈ s.toList, c ≠ ';' ∧ c ≠ '"' ∧ c ≠ '|'

section Plain

instance (s : String) : Decidable (Plain s) :=
  decidable_of_iff (s.toList.all fun c => c ≠ ';' ∧ c ≠ '"' ∧ c ≠ '|') (by simp [Plain])

variable {s t : String}

theorem plain_append : Plain (s ++ t) ↔ Plain s ∧ Plain t := by
  rw [Plain, String.toList_append, List.forall_mem_append]
  rfl

theorem Plain.uncommented? (h : Plain s) : uncommented? false s.toList = some s.toList := by
  unfold Plain at h
  generalize s.toList = cs at h
  induction cs with
  | nil => rfl
  | cons c cs ih =>
    obtain ⟨hsemicolon, hquote, hbar⟩ := h c List.mem_cons_self
    rw [SmtLowering.uncommented?, if_neg Bool.false_ne_true, if_neg hsemicolon,
      if_neg (by simp [hquote, hbar]), ih fun d hd => h d (List.mem_cons_of_mem _ hd)]
    rfl

theorem Plain.commands? {es : List SExpr} (h : Plain s) (hs : Reads s es) :
    SExpr.commands? s = some es := by
  have hrun := hs [] [] [] (by simp [Reader.Ended])
  rw [List.append_nil, List.append_nil] at hrun
  rw [SExpr.commands?, h.uncommented?, Option.bind_some, hrun]
  simp [Reader.run, Reader.endWord]

theorem plain_of_chars {p : Char → Bool} (hs : ∀ c ∈ s.toList, p c = true)
    (hp : p ';' = false ∧ p '"' = false ∧ p '|' = false) : Plain s := by
  intro c hc
  have hpc := hs c hc
  refine ⟨?_, ?_, ?_⟩ <;> rintro rfl <;> simp_all

theorem OfLiteral.plain (h : OfLiteral s) : Plain s := plain_of_chars h (by decide)

theorem IsSymbol.plain (h : IsSymbol s) : Plain s :=
  plain_of_chars (List.all_eq_true.1 h.chars) (by decide)

theorem plain_toString (n : Nat) : Plain (toString n) := (ofLiteral_toString n).plain

theorem plain_intercalate {separator : String} (hsep : Plain separator) {ss : List String}
    (h : ∀ s ∈ ss, Plain s) : Plain (separator.intercalate ss) := chars_intercalate hsep h

theorem plain_smtName (level n : Nat) : Plain (NodeId.smtName level n) := by
  refine NodeId.smtName_cases (P := Plain) (by decide) (by decide) ?_
  rw [plain_append]
  refine ⟨?_, plain_toString n⟩
  split_ifs
  · decide
  · simp only [toString_text, plain_append, plain_toString]
    decide

theorem Kind.plain_smtSort {k : Kind} (h : k.Named) : Plain k.smtSort := by
  induction k with
  | bool => decide
  | int => decide
  | real => decide
  | uninterpreted name => exact IsSymbol.plain h
  | bitVec signed width =>
    have hsort : Plain s!"(_ BitVec {width})" := by
      simp only [toString_text, plain_append, plain_toString]
      decide
    exact hsort
  | float exp sig =>
    have hsort : Plain s!"(_ FloatingPoint {exp} {sig})" := by
      simp only [toString_text, plain_append, plain_toString]
      decide
    exact hsort
  | array key value ihk ihv =>
    have hsort : Plain s!"(Array {key.smtSort} {value.smtSort})" := by
      simp only [toString_text, plain_append, ihk h.1, ihv h.2]
      decide
    exact hsort

theorem plain_indexedText {f : String} (hf : Plain f) (indices : List Nat) :
    Plain (indexedText f indices) := by
  refine plain_append.2 ⟨plain_append.2 ⟨by decide, plain_intercalate (by decide) ?_⟩, by decide⟩
  intro s hs
  rcases List.mem_cons.1 hs with rfl | hs
  · decide
  rcases List.mem_cons.1 hs with rfl | hs
  · exact hf
  · obtain ⟨i, -, rfl⟩ := List.mem_map.1 hs
    exact plain_toString i

theorem Expr.plain_render {e : Expr} {fns : List String} {level : Nat} (he : e.Emittable fns)
    (hfns : ∀ f ∈ fns, IsSymbol f) : Plain (e.render (NodeId.smtName level)) := by
  have hargs : Plain (" ".intercalate (e.args.map (NodeId.smtName level))) := by
    refine plain_intercalate (by decide) fun s hs => ?_
    obtain ⟨n, -, rfl⟩ := List.mem_map.1 hs
    exact plain_smtName level n
  have happly {head : String} (h : Plain head) : Plain (if e.args = [] then head
      else "(" ++ (head ++ " " ++ " ".intercalate (e.args.map (NodeId.smtName level))) ++ ")") := by
    split_ifs
    · exact h
    · simp only [plain_append, h, hargs]
      decide
  rcases he.op_cases with ⟨f, hf, hop⟩ | ⟨i, hop⟩ | ⟨hop, hbit⟩
  · rw [Expr.render_eq (by simp [hop]) (by simp [hop]), hop]
    exact happly (hfns f hf).plain
  · have hextract := plain_indexedText (by decide : Plain "extract") [i, i]
    rw [Expr.render_testBit hop]
    simp only [plain_append, hargs, hextract]
    decide
  · have harray : ∀ id, e.op ≠ .arrayRef id := by
      intro id hid
      rw [hid] at hop
      cases hop
    have hsymbol : Plain (e.op.symbol e.domain) := by
      have hall : ∀ f ∈ theoryNames, Plain f := by decide
      exact hall _ (Op.symbol_mem hop e.domain)
    rw [Expr.render_eq harray hbit, Op.head_eq hop hbit]
    refine happly ?_
    split_ifs
    · exact hsymbol
    · exact plain_indexedText hsymbol _

theorem Literal.plain_smt {c : Literal} {mode : RoundingMode} {text : String}
    (h : c.smt mode = .ok text) : Plain text := by
  rcases (Literal.smt_cases h).2 with ⟨b, -, rfl⟩ | ⟨-, hchars⟩
  · cases b <;> decide
  · exact hchars.plain

theorem plain_pushn {c : Char} (h : c ≠ ';' ∧ c ≠ '"' ∧ c ≠ '|') (n : Nat) :
    Plain ("".pushn c n) := by
  intro d hd
  rw [toList_pushn] at hd
  rw [List.eq_of_mem_replicate hd]
  exact h

theorem plain_chainText {pad output : String} {bs : List (String × String)} (hpad : Plain pad)
    (houtput : Plain output) (hbs : ∀ b ∈ bs, Plain b.1 ∧ Plain b.2) (closing : Nat) :
    Plain (chainText pad bs output closing) := by
  refine plain_intercalate (by decide) fun s hs => ?_
  rcases List.mem_append.1 hs with hs | hs
  · obtain ⟨b, hb, rfl⟩ := List.mem_map.1 hs
    simp only [toString_text, plain_append, hpad, hbs b hb]
    decide
  · rw [List.mem_singleton.1 hs, plain_append, plain_append]
    exact ⟨⟨hpad, houtput⟩, plain_pushn (by decide) closing⟩

end Plain

namespace Definition

variable {d : Definition} {e : SExpr}

theorem singleLine_chars (label : List Char) : ∀ c ∈ singleLine label, isLineEnd c = false := by
  fun_induction singleLine label with
  | case1 => exact fun _ h => (List.not_mem_nil h).elim
  | case2 cs ih => exact List.forall_mem_cons.2 ⟨rfl, ih⟩
  | case3 c cs _ ih =>
    refine List.forall_mem_cons.2 ⟨?_, ih⟩
    split_ifs with hc
    · rfl
    · simpa [isLineEnd] using hc

def labelLine (label : String) : String :=
  "; -- constraint: " ++ String.ofList (singleLine label.toList)

theorem isComment_labelLine (label : String) : IsComment (labelLine label) :=
  isComment_append (by simp [IsComment, isLineEnd]) (by simpa using singleLine_chars label.toList)

def freeLine (d : Definition) : String := "; -- uninterpreted: " ++ ", ".intercalate d.freeNames

def assertion (d : Definition) : String :=
  match d.paramClause? with
  | some params => s!"(assert (forall {params}\n" ++ d.body 2 ++ "))"
  | none => "(assert\n" ++ d.body 2 ++ ")"

/-- What follows the line of the label. -/
def unlabelled (d : Definition) : String :=
  if d.freeNames = [] then d.assertion else d.freeLine ++ "\n" ++ d.assertion

theorem constraintText_eq (d : Definition) (label : String) :
    d.constraintText label = labelLine label ++ "\n" ++ d.unlabelled := by
  have htext : d.constraintText label = labelLine label ++ "\n" ++
      (if d.freeNames.isEmpty then "" else d.freeLine ++ "\n") ++ d.assertion := rfl
  rw [htext, unlabelled, String.append_assoc]
  congr 1
  simp only [List.isEmpty_iff]
  split_ifs
  · exact String.empty_append
  · rfl

theorem commands?_unlabelled (hfns : ∀ f ∈ d.freeNames, IsSymbol f) :
    SExpr.commands? d.unlabelled = SExpr.commands? d.assertion := by
  unfold unlabelled
  split_ifs
  · rfl
  · refine commands?_comment (isComment_append (by simp [IsComment, isLineEnd]) ?_) d.assertion
    refine chars_intercalate (by simp [isLineEnd]) fun f hf c hc => ?_
    rw [Bool.eq_false_iff]
    intro hend
    have hchar := List.all_eq_true.1 (hfns f hf).chars c hc
    simp only [isLineEnd, Bool.or_eq_true, decide_eq_true_eq] at hend
    rcases hend with rfl | rfl <;> revert hchar <;> decide

theorem plain_paramClause (hparams : ∀ p ∈ d.params, Plain p.1 ∧ p.2.Named) :
    Plain d.paramClause := by
  unfold paramClause
  refine plain_append.2 ⟨plain_append.2 ⟨by decide, plain_intercalate (by decide) fun s hs => ?_⟩,
    by decide⟩
  obtain ⟨p, hp, rfl⟩ := List.mem_map.1 hs
  obtain ⟨hname, hnamed⟩ := hparams p hp
  simp only [toString_text, plain_append, hname, Kind.plain_smtSort hnamed]
  decide

/-- The assertion of what the body reads as, under the parameters if there are any. -/
theorem commands?_assertion (hparams : ∀ p ∈ d.params, IsWord p.1 ∧ Plain p.1 ∧ p.2.Named)
    (hbody : Reads (d.body 2) [e]) (hplain : Plain (d.body 2)) :
    ∃ term, SExpr.commands? d.assertion = some [.list [.atom "assert", term]] := by
  have hassert : IsWord "assert" := by decide
  have hforall : IsWord "forall" := by decide
  unfold assertion paramClause?
  split_ifs with hnone
  · have htext : "(assert\n" ++ d.body 2 ++ ")" = "(" ++ ("assert" ++ "\n" ++ d.body 2) ++ ")" :=
      text_ext (by simp)
    have hreads : Reads ("(assert\n" ++ d.body 2 ++ ")") [.list [.atom "assert", e]] := by
      rw [htext]
      exact ((reads_word hassert).line hbody).list
    have hchars : Plain ("(assert\n" ++ d.body 2 ++ ")") := by
      simp only [plain_append, hplain]
      decide
    exact ⟨e, hchars.commands? hreads⟩
  · obtain ⟨es, hes, -⟩ := reads_parameters fun p hp => ⟨(hparams p hp).1, (hparams p hp).2.2⟩
    have hclause : Reads d.paramClause [.list es] := (reads_intercalate hes).list
    have htext : s!"(assert (forall {d.paramClause}\n" ++ d.body 2 ++ "))" =
        "(" ++ ("assert" ++ " " ++
          ("(" ++ ("forall" ++ " " ++ d.paramClause ++ "\n" ++ d.body 2) ++ ")")) ++ ")" :=
      text_ext (by simp)
    have hreads : Reads (s!"(assert (forall {d.paramClause}\n" ++ d.body 2 ++ "))")
        [.list [.atom "assert", .list [.atom "forall", .list es, e]]] := by
      rw [htext]
      exact ((reads_word hassert).space
        (((reads_word hforall).space hclause).line hbody).list).list
    have hchars : Plain (s!"(assert (forall {d.paramClause}\n" ++ d.body 2 ++ "))") := by
      have hclauseChars := plain_paramClause fun p hp => (hparams p hp).2
      simp only [toString_text, plain_append, hplain, hclauseChars]
      decide
    exact ⟨_, hchars.commands? hreads⟩

end Definition

namespace ValidTrace

variable {t : ValidTrace} {c : Scope} {d : Definition}

theorem IsTraceOf.plain_item (h : t.IsTraceOf c) (hfns : ∀ f ∈ t.freeNames, IsSymbol f)
    (hd : Definition.ofTrace t = .ok d) : ∀ p ∈ t.items, Plain (p.2.text t) := by
  intro p hp
  rcases item_cases hd hp with ⟨q, -, rfl, htext⟩ | ⟨q, hq, rfl⟩
  · exact Literal.plain_smt htext
  · exact Expr.plain_render (h.emittable q hq) hfns

/-- The body is one S-expression, with nothing that a comment could start at. -/
theorem IsTraceOf.plain_body (h : t.IsTraceOf c) (hfns : ∀ f ∈ t.freeNames, IsSymbol f)
    (hd : Definition.ofTrace t = .ok d) (indent : Nat) :
    (∃ e, Reads (d.body indent) [e]) ∧ Plain (d.body indent) := by
  have hpad : Plain ("".pushn ' ' indent) := plain_pushn (by decide) indent
  by_cases hone : ∃ i, t.items = [(t.output, i)]
  · obtain ⟨i, hi⟩ := hone
    have hmem : (t.output, i) ∈ t.items := hi ▸ List.mem_singleton_self _
    obtain ⟨e, he⟩ := h.reads_item hfns hd _ hmem
    rw [body_eq_item hd hi]
    exact ⟨⟨e, he.indent rfl (isWhitespace_of_mem_pad indent)⟩,
      plain_append.2 ⟨hpad, h.plain_item hfns hd _ hmem⟩⟩
  · rw [not_exists] at hone
    obtain ⟨es, -, hread⟩ := h.reads_nested hfns hd hone indent
    refine ⟨⟨_, hread⟩, ?_⟩
    rw [body_eq_chain hd hone]
    refine plain_chainText hpad (plain_smtName _ _) (fun b hb => ?_) _
    obtain ⟨p, hp, rfl⟩ := List.mem_map.1 hb
    exact ⟨plain_smtName _ _, h.plain_item hfns hd p hp⟩

end ValidTrace

/-- The texts differ in a first line at most, which is a comment, and are the same assertion, as
is what follows that line. -/
def SameAssertion (s t : String) : Prop :=
  ∃ line line' rest term, s = line ++ "\n" ++ rest ∧ t = line' ++ "\n" ++ rest ∧
    IsComment line ∧ IsComment line' ∧
    ∀ text ∈ [rest, s, t], SExpr.commands? text = some [.list [.atom "assert", term]]

namespace World

/-- Whatever the labels of a constraint are, the same command is emitted: both texts are the same
assertion, or else neither is spelled for a float under a kind that is none. -/
theorem label_inert {w : World} (hw : w.Reachable) {c : Scope} (hc : c ∈ w.scopes)
    {context : String} {expected : Kind} {t : ValidTrace}
    (ht : c.finish.validate context expected = .ok t) (hfns : ∀ f ∈ t.freeNames, IsSymbol f)
    (hsorts : ∀ p ∈ t.params, p.2.Named) (label label' : String) :
    (∃ text text', t.constraintText label = .ok text ∧ t.constraintText label' = .ok text' ∧
      SameAssertion text text') ∨
    ∃ p ∈ t.constants, ∃ x, p.2.payload = .float x ∧ p.2.kind.isFloat = false ∧
      ∃ v, t.constraintText label = .error v ∧ t.constraintText label' = .error v := by
  have htrace := isTraceOf hw hc ht
  cases hd : Definition.ofTrace t with
  | error v =>
    have hnone : ¬∃ d, Definition.ofTrace t = .ok d := by simp [hd]
    rw [ValidTrace.exists_definition_iff] at hnone
    push Not at hnone
    obtain ⟨p, hp, x, hx, hfloat⟩ := hnone
    refine .inr ⟨p, hp, x, hx, Bool.eq_false_iff.2 hfloat, v, ?_, ?_⟩ <;>
      rw [ValidTrace.constraintText, hd] <;> rfl
  | ok d =>
    obtain ⟨⟨e, hbody⟩, hplain⟩ := htrace.plain_body hfns hd 2
    obtain ⟨bs, -, hdef⟩ := bind_eq_ok hd
    have hfree : d.freeNames = t.freeNames := by
      cases hdef
      rfl
    have hparams : ∀ p ∈ d.params, IsWord p.1 ∧ Plain p.1 ∧ p.2.Named := by
      cases hdef
      intro p hp
      obtain ⟨q, hq, rfl⟩ := List.mem_map.1 hp
      exact ⟨NodeId.isWord_smtName _ _, plain_smtName _ _, hsorts q hq⟩
    obtain ⟨term, hterm⟩ := Definition.commands?_assertion hparams hbody hplain
    have hrest : SExpr.commands? d.unlabelled = some [.list [.atom "assert", term]] := by
      rw [Definition.commands?_unlabelled (hfree ▸ hfns), hterm]
    refine .inl ⟨_, _, by rw [ValidTrace.constraintText, hd]; rfl,
      by rw [ValidTrace.constraintText, hd]; rfl, Definition.labelLine label,
      Definition.labelLine label', d.unlabelled, term, d.constraintText_eq label,
      d.constraintText_eq label', Definition.isComment_labelLine label,
      Definition.isComment_labelLine label', ?_⟩
    have htext (label : String) :
        SExpr.commands? (d.constraintText label) = some [.list [.atom "assert", term]] := by
      rw [d.constraintText_eq, commands?_comment (Definition.isComment_labelLine label), hrest]
    simp only [List.forall_mem_cons]
    exact ⟨hrest, htext label, htext label', fun _ h => (List.not_mem_nil h).elim⟩

/-- A label that tries to close its line and assert something. -/
theorem label_inert_injected :
    ∃ text text', callTrace.constraintText "x\n(assert false)" = .ok text ∧
      callTrace.constraintText "\r\r\n\n; \"|" = .ok text' ∧ SameAssertion text text' := by
  have hc : callInFork.scopes[1]? = some callScope := rfl
  have ht : callScope.finish.validate "lambda" (.unsigned 8) = .ok callTrace := rfl
  have hx := callTrace_expressible
  rcases label_inert callInFork_reachable (List.mem_of_getElem? hc) ht hx.symbols hx.sorts
    "x\n(assert false)" "\r\r\n\n; \"|" with h | ⟨p, hp, x, hfloat, -⟩
  · exact h
  · have hconstants : callTrace.constants = [(4, .word false 8 5)] := by decide
    rw [hconstants] at hp
    rw [List.mem_singleton.1 hp] at hfloat
    cases hfloat

end World

end SmtLowering
