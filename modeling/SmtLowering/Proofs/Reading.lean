import SmtLowering.Definition
import SmtLowering.Proofs.Spelling

/-!
# Reading terms back

`ReadsAs L position text t` says that a text reads as a term. It is closed under what bodies are
written with: names, applications and bindings, one a line. So an expression's text reads as its
term (`Expr.readsAs_render`), and a chain of bindings around an output as nested `let`s
(`readsAs_chain`).
-/

namespace SmtLowering

def ReadsAs (L : Literals) (position : Option String) (text : String) (t : Term) : Prop :=
  ∃ e, Reads text [e] ∧ e.term L position = some t

/-- The items of the text read as the terms. -/
def ReadsAll (L : Literals) (text : String) (ts : List Term) : Prop :=
  ∃ es, Reads text es ∧ SExpr.terms L (.list es) = some ts

/-- No literal stands in the position. -/
def Vacant (L : Literals) (position : Option String) : Prop := ∀ x ∈ position, ∀ e, L x e = none

/-- The text is read as a name. -/
def IsName (x : String) : Prop := IsWord x ∧ SExpr.binary? x = none

variable {L : Literals} {position : Option String} {text : String} {t u : Term} {ts : List Term}
  {x f : String}

theorem SExpr.orElse_eq {e : SExpr} {o : Option Term} (h : ∀ x ∈ position, L x e = none) :
    SExpr.orElse L position e o = o := by
  cases position with
  | none => rfl
  | some x =>
    have hx : (some x).bind (L · e) = none := h x rfl
    unfold SExpr.orElse
    rw [hx]

theorem Vacant.orElse (h : Vacant L position) (e : SExpr) (o : Option Term) :
    SExpr.orElse L position e o = o := SExpr.orElse_eq fun x hx => h x hx e

theorem vacant_none : Vacant L none := fun _ h => by cases h

section Rules

theorem ReadsAs.literal {e : SExpr} {c : Literal} (h : Reads text [e]) (hc : L x e = some c) :
    ReadsAs L (some x) text (.literal c) := by
  refine ⟨e, h, ?_⟩
  have horElse (o : Option Term) : SExpr.orElse L (some x) e o = some (.literal c) := by
    have hx : (some x).bind (L · e) = some c := hc
    unfold SExpr.orElse
    rw [hx]
  cases e with
  | nil => rw [SExpr.term, horElse]
  | atom s => rw [SExpr.term, horElse]
  | cons first rest =>
    cases first with
    | nil => rw [SExpr.term, horElse]
    | atom s =>
      unfold SExpr.term
      rw [horElse]
    | cons a b =>
      unfold SExpr.term
      rw [horElse]

theorem ReadsAs.name (h : IsName x) (hp : Vacant L position) : ReadsAs L position x (.name x) := by
  refine ⟨_, reads_word h.1, ?_⟩
  rw [SExpr.term, hp.orElse, h.2]
  rfl

theorem ReadsAs.indent {pad : String} {cs : List Char} (hpad : pad.toList = cs)
    (hcs : ∀ c ∈ cs, c.isWhitespace = true) (h : ReadsAs L position text t) :
    ReadsAs L position (pad ++ text) t := by
  obtain ⟨e, he, ht⟩ := h
  exact ⟨e, Reads.indent hpad hcs he, ht⟩

theorem ReadsAs.pair {text' : String} (h : ReadsAs L none text t) (h' : ReadsAs L none text' u) :
    ReadsAll L (text ++ " " ++ text') [t, u] := by
  obtain ⟨e, he, ht⟩ := h
  obtain ⟨e', he', hu⟩ := h'
  refine ⟨_, he.space he', ?_⟩
  simp [SExpr.list, SExpr.terms, ht, hu]

theorem ReadsAll.names {nameOf : NodeId → String} (h : ∀ n, IsName (nameOf n))
    (args : List NodeId) :
    ReadsAll L (" ".intercalate (args.map nameOf)) (args.map fun n => .name (nameOf n)) := by
  refine ⟨args.map fun n => .atom (nameOf n), reads_intercalate ?_, ?_⟩
  · rw [List.forall₂_map_left_iff, List.forall₂_map_right_iff, List.forall₂_same]
    exact fun n _ => reads_word (h n).1
  · induction args with
    | nil => rfl
    | cons n ns ih =>
      have hn : SExpr.term L none (.atom (nameOf n)) = some (.name (nameOf n)) := by
        rw [SExpr.term, vacant_none.orElse, (h n).2]
        rfl
      rw [List.map_cons, SExpr.list, List.foldr_cons, ← SExpr.list, SExpr.terms, hn, ih]
      rfl

theorem ReadsAs.apply (hf : IsWord f) (hlet : f ≠ "let") (hp : Vacant L position)
    (h : ReadsAll L text ts) :
    ReadsAs L position ("(" ++ (f ++ " " ++ text) ++ ")") (.apply f [] ts) := by
  obtain ⟨es, hes, hts⟩ := h
  refine ⟨_, ((reads_word hf).space hes).list, ?_⟩
  show SExpr.term L position (.cons (.atom f) (.list es)) = _
  unfold SExpr.term
  rw [hp.orElse, if_neg hlet, hts]
  rfl

theorem numerals?_toString (indices : List Nat) :
    SExpr.numerals? (.list (indices.map fun i => .atom (toString i))) = some indices := by
  induction indices with
  | nil => rfl
  | cons i is ih =>
    rw [List.map_cons, SExpr.list, List.foldr_cons, ← SExpr.list, SExpr.numerals?,
      numeral?_toString, ih]
    rfl

theorem ReadsAs.applyIndexed {head : String} {indices : List Nat}
    (hhead : Reads head [.indexed f indices]) (hp : Vacant L position) (h : ReadsAll L text ts) :
    ReadsAs L position ("(" ++ (head ++ " " ++ text) ++ ")") (.apply f indices ts) := by
  obtain ⟨es, hes, hts⟩ := h
  refine ⟨_, (hhead.space hes).list, ?_⟩
  show SExpr.term L position (.cons (.cons (.atom "_") (.cons (.atom f)
    (.list (indices.map fun i => .atom (toString i))))) (.list es)) = _
  rw [SExpr.term, hp.orElse]
  simp only [numerals?_toString, hts]
  rfl

theorem ReadsAs.bind {value body : String} (hx : IsWord x) (hv : ReadsAs L (some x) value t)
    (hb : ReadsAs L none body u)
    (hp : ∀ y ∈ position, ∀ args, L y (.cons (.atom "let") args) = none) :
    ReadsAs L position
      ("(" ++ ("let" ++ " " ++ ("(" ++ ("(" ++ (x ++ " " ++ value) ++ ")") ++ ")") ++ "\n" ++ body)
        ++ ")") (.bind x t u) := by
  obtain ⟨e, he, ht⟩ := hv
  obtain ⟨e', he', hu⟩ := hb
  have hlet : IsWord "let" := by decide
  refine ⟨_, (((reads_word hlet).space ((reads_word hx).space he).list.list).line he').list, ?_⟩
  show SExpr.term L position (.cons (.atom "let")
    (.cons (.cons (.cons (.atom x) (.cons e .nil)) .nil) (.cons e' .nil))) = _
  rw [SExpr.term, SExpr.orElse_eq fun y hy => hp y hy _, if_pos rfl, ht, hu]
  rfl

end Rules

section Expressions

variable {e : Expr} {fns : List String} {nameOf : NodeId → String}

theorem isWord_of_mem_theoryNames {f : String} (h : f ∈ theoryNames) : IsWord f ∧ f ≠ "let" := by
  have hall : ∀ f ∈ theoryNames, IsWord f ∧ f ≠ "let" := by decide
  exact hall f h

/-- The symbol of an operator as it is spelled: with its indices, if it has any. -/
theorem Op.head_eq {op : Op} (hop : op.isNamed = false) (hbit : ∀ i, op ≠ .testBit i)
    (domain : Kind) :
    Expr.head op domain =
      if op.indices = [] then op.symbol domain else indexedText (op.symbol domain) op.indices := by
  cases op with
  | apply name | table id | arrayRef id => cases hop
  | testBit i => exact absurd rfl (hbit i)
  | zeroExtend count =>
    have htext : s!"(_ zero_extend {count})" = indexedText "zero_extend" [count] :=
      text_ext (by simp)
    exact htext
  | signExtend count =>
    have htext : s!"(_ sign_extend {count})" = indexedText "sign_extend" [count] :=
      text_ext (by simp)
    exact htext
  | extract hi lo =>
    have htext : s!"(_ extract {hi} {lo})" = indexedText "extract" [hi, lo] :=
      text_ext (by simp)
    exact htext
  | _ => rfl

theorem Op.head_cases {op : Op} (hop : op.isNamed = false) (hbit : ∀ i, op ≠ .testBit i)
    (domain : Kind) :
    (op.indices = [] ∧ Expr.head op domain = op.symbol domain) ∨
      Reads (Expr.head op domain) [.indexed (op.symbol domain) op.indices] := by
  rw [Op.head_eq hop hbit]
  split_ifs with hindices
  · exact .inl ⟨hindices, rfl⟩
  · exact .inr (reads_indexed (isWord_of_mem_theoryNames (Op.symbol_mem hop domain)).1 op.indices)

/-- Most expressions are an application, or a symbol if there are no operands. -/
theorem Expr.render_eq (harray : ∀ id, e.op ≠ .arrayRef id) (hbit : ∀ i, e.op ≠ .testBit i) :
    e.render nameOf =
      if e.args = [] then Expr.head e.op e.domain
      else
        "(" ++ (Expr.head e.op e.domain ++ " " ++ " ".intercalate (e.args.map nameOf)) ++ ")" := by
  obtain ⟨op, domain, args⟩ := e
  have hrender : Expr.render nameOf ⟨op, domain, args⟩ =
      if args.isEmpty then Expr.head op domain
      else "(" ++ Expr.head op domain ++ " " ++ " ".intercalate (args.map nameOf) ++ ")" := by
    cases op with
    | arrayRef id => exact absurd rfl (harray id)
    | testBit i => exact absurd rfl (hbit i)
    | _ => rfl
  rw [hrender]
  simp only [List.isEmpty_iff, String.append_assoc]

theorem Expr.render_testBit {i : Nat} (h : e.op = .testBit i) :
    e.render nameOf =
      "(" ++ ("=" ++ " " ++ ("(" ++ (indexedText "extract" [i, i] ++ " " ++
        " ".intercalate (e.args.map nameOf)) ++ ")" ++ " " ++ "#b1")) ++ ")" := by
  obtain ⟨op, domain, args⟩ := e
  cases h
  show "(= (" ++ s!"(_ extract {i} {i})" ++ " " ++ " ".intercalate (args.map nameOf) ++ ") #b1)" = _
  exact text_ext (by simp)

theorem Op.arity?_of_not_named {op : Op} (hop : op.isNamed = false) :
    ∃ n, op.arity? = some (n + 1) := by
  cases op with
  | apply name | table id | arrayRef id => cases hop
  | _ => exact ⟨_, rfl⟩

/-- An expression's text reads as its term. -/
theorem Expr.readsAs_render (he : e.Emittable fns) (hfns : ∀ f ∈ fns, IsSymbol f)
    (hnames : ∀ n, IsName (nameOf n)) (hp : Vacant L position) :
    ReadsAs L position (e.render nameOf) (e.term nameOf) := by
  have hargs := ReadsAll.names (L := L) hnames e.args
  rcases he.op_cases with ⟨f, hf, hop⟩ | ⟨i, hop⟩ | ⟨hop, hbit⟩
  · have hsymbol := hfns f hf
    rw [Expr.term_apply hop, Expr.render_eq (by simp [hop]) (by simp [hop]), hop]
    show ReadsAs L position (if e.args = [] then f else "(" ++ (f ++ " " ++ _) ++ ")") _
    split_ifs
    · exact .name ⟨hsymbol.isWord, hsymbol.binary?_eq_none⟩ hp
    · exact .apply hsymbol.isWord hsymbol.ne_let hp hargs
  · have hextract := reads_indexed (by decide : IsWord "extract") [i, i]
    have hone : ReadsAs L none "#b1" (.literal (.word false 1 1)) :=
      ⟨.atom "#b1", reads_word (by decide), rfl⟩
    rw [Expr.term_testBit hop, Expr.render_testBit hop]
    exact .apply (by decide) (by decide) hp
      ((ReadsAs.applyIndexed hextract vacant_none hargs).pair hone)
  · have hne : e.args ≠ [] := by
      obtain ⟨n, hn⟩ := Op.arity?_of_not_named hop
      have htakes := he.takes _ hn
      intro hnil
      rw [hnil] at htakes
      cases htakes
    have harray : ∀ id, e.op ≠ .arrayRef id := by
      intro id hid
      rw [hid] at hop
      cases hop
    rw [Expr.term_theory hop hbit, Expr.render_eq harray hbit, if_neg hne]
    rcases Op.head_cases hop hbit e.domain with ⟨hindices, hhead⟩ | hhead
    · obtain ⟨hword, hlet⟩ := isWord_of_mem_theoryNames (Op.symbol_mem hop e.domain)
      rw [hhead, hindices]
      exact .apply hword hlet hp hargs
    · exact .applyIndexed hhead hp hargs

end Expressions

section Chains

/-- Nested bindings around an output. -/
def chain (bs : List (String × Term)) (output : String) : Term :=
  bs.foldr (fun (x, t) body => .bind x t body) (.name output)

/-- The lines of a nested body, with this many parentheses at the end. -/
def chainText (pad : String) (bs : List (String × String)) (output : String) (closing : Nat) :
    String :=
  "\n".intercalate (bs.map (fun (x, text) => s!"{pad}(let (({x} {text}))") ++
    [pad ++ output ++ "".pushn ')' closing])

/-- Each name is a word, and each text, standing for the name, reads as the term. -/
def BindsAs (L : Literals) (b : String × String) (t : String × Term) : Prop :=
  t.1 = b.1 ∧ IsWord b.1 ∧ ReadsAs L (some b.1) b.2 t.2

variable {pad output : String} {bs : List (String × String)}

theorem chainText_nil : chainText pad [] output 0 = pad ++ output := by
  have hempty : "".pushn ')' 0 = "" := rfl
  rw [chainText, List.map_nil, List.nil_append, String.intercalate_singleton, hempty,
    String.append_empty]

/-- A line, and the rest of the lines below it. -/
theorem chainText_line (x value : String) (n : Nat) :
    chainText pad ((x, value) :: bs) output n =
      s!"{pad}(let (({x} {value}))" ++ "\n" ++ chainText pad bs output n := by
  unfold chainText
  cases bs with
  | nil => rw [List.map_cons, List.map_nil, List.cons_append, List.nil_append,
      String.intercalate_cons_cons]
  | cons b bs => rw [List.map_cons, List.map_cons, List.cons_append, List.cons_append,
      String.intercalate_cons_cons]

theorem chainText_succ (n : Nat) :
    chainText pad bs output (n + 1) = chainText pad bs output n ++ ")" := by
  induction bs with
  | nil =>
    have hpush : "".pushn ')' (n + 1) = ("".pushn ')' n).push ')' := rfl
    unfold chainText
    rw [List.map_nil, List.nil_append, List.nil_append, String.intercalate_singleton,
      String.intercalate_singleton, hpush]
    exact text_ext (by simp)
  | cons b bs ih =>
    obtain ⟨x, value⟩ := b
    rw [chainText_line, chainText_line, ih]
    simp only [String.append_assoc]

theorem chainText_cons (x value : String) (n : Nat) :
    chainText pad ((x, value) :: bs) output (n + 1) =
      pad ++ ("(" ++ ("let" ++ " " ++ ("(" ++ ("(" ++ (x ++ " " ++ value) ++ ")") ++ ")") ++ "\n" ++
        chainText pad bs output n) ++ ")") := by
  rw [chainText_succ, chainText_line]
  exact text_ext (by simp)

/-- The lines of a nested body read as the chain of its bindings. -/
theorem readsAs_chain {ts : List (String × Term)} {cs : List Char}
    (h : List.Forall₂ (BindsAs L) bs ts) (houtput : IsName output) (hpad : pad.toList = cs)
    (hcs : ∀ c ∈ cs, c.isWhitespace = true)
    (hlet : ∀ y ∈ position, ∀ args, L y (.cons (.atom "let") args) = none)
    (hnil : bs = [] → Vacant L position) :
    ReadsAs L position (chainText pad bs output bs.length) (chain ts output) := by
  induction h generalizing position with
  | nil =>
    rw [List.length_nil, chainText_nil]
    exact (ReadsAs.name houtput (hnil rfl)).indent hpad hcs
  | @cons b t bs ts hb hbs ih =>
    obtain ⟨x, value⟩ := b
    obtain ⟨y, u⟩ := t
    obtain ⟨rfl, hword, hvalue⟩ := hb
    have hbody : ReadsAs L none (chainText pad bs output bs.length) (chain ts output) :=
      ih (fun _ h => by cases h) fun _ => vacant_none
    rw [List.length_cons, chainText_cons]
    exact (ReadsAs.bind hword hvalue hbody hlet).indent hpad hcs

/-- The term of a body: the right side of the output, if nothing else is bound, or a chain. -/
def bodyTerm (ts : List (String × Term)) (output : String) : Term :=
  match ts with
  | [(x, t)] => if x = output then t else chain ts output
  | ts => chain ts output

theorem bodyTerm_cases (ts : List (String × Term)) (output : String) :
    bodyTerm ts output = chain ts output ∨ ts = [(output, bodyTerm ts output)] := by
  unfold bodyTerm
  split
  · split_ifs with hx
    · exact .inr (by rw [hx])
    · exact .inl rfl
  · exact .inl rfl

theorem toList_pushn (c : Char) (n : Nat) : ("".pushn c n).toList = List.replicate n c := by
  induction n with
  | zero => rfl
  | succ n ih =>
    have hpush : "".pushn c (n + 1) = ("".pushn c n).push c := rfl
    rw [hpush, String.toList_push, ih, List.replicate_succ']

theorem readsAs_body {d : Definition} {ts : List (String × Term)}
    (h : List.Forall₂ (BindsAs L) d.bindings ts) (houtput : IsName d.output)
    (hlet : ∀ args, L d.output (.cons (.atom "let") args) = none)
    (hnil : d.bindings = [] → Vacant L (some d.output)) (indent : Nat) :
    ReadsAs L (some d.output) (d.body indent) (bodyTerm ts d.output) := by
  have hblank : ∀ c ∈ List.replicate indent ' ', c.isWhitespace = true := by
    intro c hc
    rw [List.eq_of_mem_replicate hc]
    rfl
  have hpad := toList_pushn ' ' indent
  have hchain : ReadsAs L (some d.output) (d.nestedBody ("".pushn ' ' indent))
      (chain ts d.output) := by
    refine readsAs_chain h houtput hpad hblank (fun y hy => ?_) hnil
    cases hy
    exact hlet
  obtain ⟨freeNames, params, bindings, output⟩ := d
  cases h with
  | nil => exact hchain
  | @cons b t bs ts hb hbs =>
    obtain ⟨x, text⟩ := b
    obtain ⟨y, u⟩ := t
    cases hbs with
    | cons => exact hchain
    | nil =>
      obtain ⟨rfl, -, hterm⟩ := hb
      unfold Definition.body Definition.simpleTerm? bodyTerm
      simp only
      split_ifs with hx
      · subst hx
        exact hterm.indent hpad hblank
      · exact hchain

end Chains

section Parameters

theorem reads_parameters {params : List (String × Kind)}
    (h : ∀ p ∈ params, IsWord p.1 ∧ p.2.Named) :
    ∃ es, List.Forall₂ (fun s e => Reads s [e])
        (params.map fun (name, kind) => s!"({name} {kind.smtSort})") es ∧
      SExpr.parameters? (.list es) = some (params.map (·.1)) := by
  induction params with
  | nil => exact ⟨[], .nil, rfl⟩
  | cons p params ih =>
    obtain ⟨es, hes, hnames⟩ := ih fun q hq => h q (List.mem_cons_of_mem _ hq)
    obtain ⟨x, k⟩ := p
    obtain ⟨hx, hk⟩ := h _ List.mem_cons_self
    obtain ⟨e, he⟩ := Kind.reads_smtSort hk
    have htext : s!"({x} {k.smtSort})" = "(" ++ (x ++ " " ++ k.smtSort) ++ ")" :=
      text_ext (by simp)
    have hitem : Reads s!"({x} {k.smtSort})" [.list ([.atom x] ++ [e])] := by
      rw [htext]
      exact ((reads_word hx).space he).list
    refine ⟨_ :: es, .cons hitem hes, ?_⟩
    show (SExpr.parameters? (.list es)).map (x :: ·) = _
    rw [hnames]
    rfl

/-- The clause of parameters declares their names. -/
theorem Definition.read_paramClause {d : Definition} (h : ∀ p ∈ d.params, IsWord p.1 ∧ p.2.Named) :
    (SExpr.read d.paramClause).bind SExpr.parameters? = some (d.params.map (·.1)) := by
  obtain ⟨es, hes, hnames⟩ := reads_parameters h
  have hread : Reads d.paramClause [.list es] := (reads_intercalate hes).list
  rw [hread.read]
  exact hnames

end Parameters

end SmtLowering
