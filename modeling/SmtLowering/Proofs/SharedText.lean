import SmtLowering.Proofs.Bodies
import SmtLowering.Proofs.Captures
import SmtLowering.Proofs.Tokens

/-!
# How bodies share

A body binds each constant and each assignment once, in the order they were recorded, one a line,
and names a node once for each time it is an operand (`World.body_spells_graph`). `Mentions` says
how often a text names which nodes; it is closed under what texts are built by, so an expression's
text mentions its operands (`Expr.mentions_render`).
-/

namespace SmtLowering

/-- The text is on one line and names each node as often as it is in `ns`. -/
structure Mentions (level : Nat) (text : String) (ns : List NodeId) : Prop where
  line : '\n' ∉ text.toList
  count : ∀ n, (words text).count (NodeId.smtName level n) = ns.count n

namespace Mentions

variable {level : Nat} {s t : String} {ns ms : List NodeId}

theorem name (n : NodeId) : Mentions level (NodeId.smtName level n) [n] := by
  have hword := NodeId.isWord_smtName level n
  refine ⟨newline_not_mem_of_isWord hword, fun m => ?_⟩
  rw [words_word hword]
  exact NodeId.count_smtName level [n] m

theorem word (h : IsWord s) (hs : ∀ n, s ≠ NodeId.smtName level n) : Mentions level s [] := by
  refine ⟨newline_not_mem_of_isWord h, fun n => ?_⟩
  rw [words_word h]
  exact List.count_eq_zero.2 fun hmem => hs n (List.mem_singleton.1 hmem).symm

theorem ofLiteral (h : OfLiteral s) : Mentions level s [] :=
  ⟨fun hmem => absurd (h '\n' hmem) (by decide),
    fun _ => List.count_eq_zero.2 (NodeId.smtName_not_mem_words h)⟩

theorem operator (h : IsWord s) (hs : s ∈ "let" :: theoryNames.drop 2) : Mentions level s [] :=
  word h fun _ hn => NodeId.smtName_not_mem_operators (hn ▸ hs)

theorem space (hs : Mentions level s ns) (ht : Mentions level t ms) :
    Mentions level (s ++ " " ++ t) (ns ++ ms) := by
  refine ⟨?_, fun n => ?_⟩
  · simp [hs.line, ht.line]
  · rw [words_space, List.count_append, List.count_append, hs.count, ht.count]

theorem parens (h : Mentions level s ns) : Mentions level ("(" ++ s ++ ")") ns := by
  refine ⟨?_, fun n => ?_⟩
  · simp [h.line]
  · rw [words_parens, h.count]

theorem intercalate {α : Type} {text : α → String} {nodes : α → List NodeId} {xs : List α}
    (h : ∀ x ∈ xs, Mentions level (text x) (nodes x)) :
    Mentions level (" ".intercalate (xs.map text)) (xs.flatMap nodes) := by
  induction xs with
  | nil => exact ⟨List.not_mem_nil, fun _ => rfl⟩
  | cons x xs ih =>
    have hx := h x List.mem_cons_self
    cases xs with
    | nil => simpa using hx
    | cons y ys =>
      rw [List.map_cons, List.map_cons, String.intercalate_cons_cons]
      exact hx.space (ih fun z hz => h z (List.mem_cons_of_mem _ hz))

theorem names (args : List NodeId) :
    Mentions level (" ".intercalate (args.map (NodeId.smtName level))) args := by
  have hnames : ∀ n ∈ args, Mentions level (NodeId.smtName level n) [n] := fun n _ => name n
  have hall := intercalate hnames
  rwa [List.flatMap_singleton'] at hall

theorem indexed {f : String} (hf : Mentions level f []) (indices : List Nat) :
    Mentions level (indexedText f indices) [] := by
  have hwords : ∀ s ∈ "_" :: f :: indices.map toString, Mentions level (id s) [] := by
    intro s hs
    rcases List.mem_cons.1 hs with rfl | hs
    · exact ofLiteral (by decide)
    rcases List.mem_cons.1 hs with rfl | hs
    · exact hf
    · obtain ⟨i, -, rfl⟩ := List.mem_map.1 hs
      exact ofLiteral (ofLiteral_toString i)
  have hall := (intercalate hwords).parens
  rwa [List.map_id, List.flatMap_eq_nil_iff.2 fun _ _ => rfl] at hall

/-- An application mentions its operands. -/
theorem apply {f : String} (hf : Mentions level f []) (args : List NodeId) :
    Mentions level ("(" ++ (f ++ " " ++ " ".intercalate (args.map (NodeId.smtName level))) ++ ")")
      args := (hf.space (names args)).parens

end Mentions

/-- An expression's text mentions its operands. -/
theorem Expr.mentions_render {e : Expr} {fns : List String} {level : Nat} (he : e.Emittable fns)
    (hfns : ∀ f ∈ fns, IsSymbol f) (hfresh : ∀ f ∈ fns, ∀ n, f ≠ NodeId.smtName level n) :
    Mentions level (e.render (NodeId.smtName level)) e.args := by
  rcases he.op_cases with ⟨f, hf, hop⟩ | ⟨i, hop⟩ | ⟨hop, hbit⟩
  · have hsymbol := Mentions.word (hfns f hf).isWord (hfresh f hf)
    rw [Expr.render_eq (by simp [hop]) (by simp [hop]), hop]
    show Mentions level (if e.args = [] then f else "(" ++ (f ++ " " ++ _) ++ ")") _
    split_ifs with hargs
    · rwa [hargs]
    · exact hsymbol.apply e.args
  · have heq : Mentions level "=" [] := .operator (by decide) (by decide)
    have hone : Mentions level "#b1" [] := .ofLiteral (by decide)
    have hextract : Mentions level "extract" [] := .operator (by decide) (by decide)
    have htext := (heq.space (((hextract.indexed [i, i]).apply e.args).space hone)).parens
    rw [Expr.render_testBit hop]
    rwa [List.nil_append, List.append_nil] at htext
  · have hsymbol : Mentions level (e.op.symbol e.domain) [] :=
      .operator (isWord_of_mem_theoryNames (Op.symbol_mem hop e.domain)).1
        (List.mem_cons_of_mem _ (Op.symbol_mem_drop hop e.domain))
    have hhead : Mentions level (Expr.head e.op e.domain) [] := by
      rw [Op.head_eq hop hbit]
      split_ifs
      · exact hsymbol
      · exact hsymbol.indexed e.op.indices
    have harray : ∀ id, e.op ≠ .arrayRef id := by
      intro id hid
      rw [hid] at hop
      cases hop
    rw [Expr.render_eq harray hbit]
    split_ifs with hargs
    · rwa [hargs]
    · exact hhead.apply e.args

/-- A literal mentions the node that it is spelled like, and no other. -/
theorem Literal.mentions_smt {c : Literal} {mode : RoundingMode} {text : String}
    (h : c.smt mode = .ok text) (level : Nat) : Mentions level text c.truthNode?.toList := by
  rcases (Literal.smt_cases h).2 with ⟨b, hb, rfl⟩ | ⟨hnone, hchars⟩
  · rw [truthNode?, hb]
    cases b with
    | false => exact .name 0
    | true => exact .name 1
  · rw [truthNode?, hnone]
    exact .ofLiteral hchars

section Chains

/-- Nested bindings around a body. -/
def SExpr.lets (bs : List (String × SExpr)) (body : SExpr) : SExpr :=
  bs.foldr (fun b rest => .list [.atom "let", .list [.list [.atom b.1, b.2]], rest]) body

variable {pad output : String}

/-- The lines of a nested body read as nested bindings of what their texts read as. -/
theorem reads_lets {bs : List (String × String)} {es : List SExpr}
    (h : List.Forall₂ (fun b e => IsWord b.1 ∧ Reads b.2 [e]) bs es) (houtput : IsWord output)
    (hpad : ∀ c ∈ pad.toList, c.isWhitespace = true) :
    Reads (chainText pad bs output bs.length) [.lets ((bs.map (·.1)).zip es) (.atom output)] := by
  induction h with
  | nil =>
    rw [List.length_nil, chainText_nil]
    exact (reads_word houtput).indent rfl hpad
  | @cons b e bs es hb _ ih =>
    obtain ⟨x, value⟩ := b
    obtain ⟨hx, hvalue⟩ := hb
    have hlet : IsWord "let" := by decide
    have hbind := ((reads_word hlet).space ((reads_word hx).space hvalue).list.list).line ih
    rw [List.length_cons, chainText_cons]
    exact hbind.list.indent rfl hpad

theorem words_chain (bs : List (String × String)) (houtput : IsWord output)
    (hbs : ∀ b ∈ bs, IsWord b.1) (hpad : ∀ c ∈ pad.toList, c.isWhitespace = true) :
    words (chainText pad bs output bs.length) =
      bs.flatMap (fun b => "let" :: b.1 :: words b.2) ++ [output] := by
  induction bs with
  | nil => rw [List.length_nil, chainText_nil, words_indent hpad, words_word houtput]; rfl
  | cons b bs ih =>
    obtain ⟨x, value⟩ := b
    have hlet : IsWord "let" := by decide
    have hx : IsWord x := hbs _ List.mem_cons_self
    rw [List.length_cons, chainText_cons, words_indent hpad, words_parens, words_line, words_space,
      words_parens, words_parens, words_space, words_word hlet, words_word hx,
      ih fun b hb => hbs b (List.mem_cons_of_mem _ hb)]
    simp

end Chains

namespace ValidTrace

/-- The nodes that an item's text names, as often as it does. -/
def Item.nodes : Item → List NodeId
  | .constant c => c.truthNode?.toList
  | .expr e => e.args
  | .output n => [n]

variable {t : ValidTrace} {c : Scope}

/-- A chain names each node where it is bound, where it is mentioned and as the output. -/
theorem count_chain {pad : String} (hpad : ∀ c ∈ pad.toList, c.isWhitespace = true)
    {items : List (NodeId × Item)} (h : ∀ p ∈ items, Mentions t.level (p.2.text t) p.2.nodes)
    (output n : NodeId) :
    (words (chainText pad (items.map fun p => (NodeId.smtName t.level p.1, p.2.text t))
      (NodeId.smtName t.level output) items.length)).count (NodeId.smtName t.level n) =
      (items.map (·.1)).count n + (items.flatMap (·.2.nodes)).count n + [output].count n := by
  have hbs : ∀ b ∈ items.map fun p => (NodeId.smtName t.level p.1, p.2.text t), IsWord b.1 := by
    intro b hb
    obtain ⟨p, -, rfl⟩ := List.mem_map.1 hb
    exact NodeId.isWord_smtName t.level p.1
  have hwords := words_chain _ (NodeId.isWord_smtName t.level output) hbs hpad
  rw [List.length_map, List.flatMap_map] at hwords
  rw [hwords, List.count_append, ← NodeId.count_smtName t.level [output]]
  congr 1
  clear hbs hwords
  induction items with
  | nil => rfl
  | cons p items ih =>
    have hp := (h p List.mem_cons_self).count n
    have hlet : "let" ≠ NodeId.smtName t.level n := by
      have hname : NodeId.smtName t.level n ∉ "let" :: theoryNames.drop 2 :=
        NodeId.smtName_not_mem_operators
      exact fun he => hname (List.mem_cons.2 (.inl he.symm))
    have hname := NodeId.count_smtName t.level [p.1] n
    rw [List.map_cons, List.map_nil, List.count_singleton, List.count_singleton] at hname
    rw [List.flatMap_cons, List.count_append, ih fun q hq => h q (List.mem_cons_of_mem _ hq),
      List.count_cons_of_ne hlet, List.count_cons, hname, hp, List.map_cons, List.count_cons,
      List.flatMap_cons, List.count_append]
    omega

section Definitions

variable {d : Definition}

theorem exists_ok_of_mapM {α β ε : Type} {f : α → Except ε β} {xs : List α} {ys : List β}
    (h : xs.mapM f = .ok ys) : ∀ x ∈ xs, ∃ y, f x = .ok y := by
  induction xs generalizing ys with
  | nil => exact fun _ h => (List.not_mem_nil h).elim
  | cons x xs ih =>
    rw [List.mapM_cons] at h
    obtain ⟨y, hy, h⟩ := bind_eq_ok h
    obtain ⟨zs, hzs, -⟩ := bind_eq_ok h
    exact List.forall_mem_cons.2 ⟨⟨y, hy⟩, ih hzs⟩

theorem smt_of_ofTrace (h : Definition.ofTrace t = .ok d) :
    ∀ p ∈ t.constants, ∃ text, p.2.smt t.rounding = .ok text := by
  intro p hp
  obtain ⟨bs, hbs, -⟩ := bind_eq_ok h
  obtain ⟨b, hb⟩ := exists_ok_of_mapM hbs p hp
  obtain ⟨text, htext, -⟩ := bind_eq_ok hb
  exact ⟨text, htext⟩

/-- All traces are spelled but those with a float under a kind that is none. -/
theorem exists_definition_iff :
    (∃ d, Definition.ofTrace t = .ok d) ↔
      ∀ p ∈ t.constants, ∀ x, p.2.payload = .float x → p.2.kind.isFloat = true := by
  constructor
  · rintro ⟨d, hd⟩ p hp x hx
    obtain ⟨text, htext⟩ := smt_of_ofTrace hd p hp
    obtain ⟨n, kind, payload⟩ := p
    cases hx
    cases kind with
    | float exp sig => rfl
    | _ => cases htext
  · intro h
    have hconstants : ∀ p ∈ t.constants, ∃ b,
        (do let text ← p.2.smt t.rounding; pure (NodeId.smtName t.level p.1, text)) =
          (.ok b : Except Violation (String × String)) ∧ True := by
      rintro ⟨n, kind, payload⟩ hp
      have hfloat := h _ hp
      cases payload with
      | float x =>
        cases kind with
        | float exp sig => exact ⟨_, rfl, trivial⟩
        | _ => cases hfloat x rfl
      | _ => cases kind <;> exact ⟨_, rfl, trivial⟩
    obtain ⟨bs, hbs, -⟩ := mapM_ok (g := id) (R := fun _ _ => True) hconstants
    exact ⟨t.definition bs, by rw [ofTrace_eq, hbs]; rfl⟩

/-- An item is a literal with the text that it is spelled as, or the expression of a node. -/
theorem item_cases (hd : Definition.ofTrace t = .ok d) {p : NodeId × Item} (hp : p ∈ t.items) :
    (∃ q ∈ t.constants, p = (q.1, .constant q.2) ∧ q.2.smt t.rounding = .ok (p.2.text t)) ∨
      ∃ q ∈ t.assignments, p = (q.1, .expr q.2) := by
  rcases List.mem_append.1 hp with hp | hp
  · obtain ⟨q, hq, rfl⟩ := List.mem_map.1 hp
    obtain ⟨text, htext⟩ := smt_of_ofTrace hd q hq
    refine .inl ⟨q, hq, rfl, ?_⟩
    rw [Item.text, htext]
  · obtain ⟨q, hq, rfl⟩ := List.mem_map.1 hp
    exact .inr ⟨q, hq, rfl⟩

/-- Each item's text reads as one S-expression. -/
theorem IsTraceOf.reads_item (h : t.IsTraceOf c) (hfns : ∀ f ∈ t.freeNames, IsSymbol f)
    (hd : Definition.ofTrace t = .ok d) : ∀ p ∈ t.items, ∃ e, Reads (p.2.text t) [e] := by
  intro p hp
  rcases item_cases hd hp with ⟨q, -, rfl, htext⟩ | ⟨q, hq, rfl⟩
  · exact (Literal.smt_cases htext).1
  · obtain ⟨e, he, -⟩ := Expr.readsAs_render (L := fun _ _ => none) (h.emittable q hq) hfns
      (isName_smtName t.level) vacant_none
    exact ⟨e, he⟩

theorem IsTraceOf.mentions_item (h : t.IsTraceOf c) (hfns : ∀ f ∈ t.freeNames, IsSymbol f)
    (hfresh : ∀ f ∈ t.freeNames, ∀ n, f ≠ NodeId.smtName t.level n)
    (hd : Definition.ofTrace t = .ok d) :
    ∀ p ∈ t.items, Mentions t.level (p.2.text t) p.2.nodes := by
  intro p hp
  rcases item_cases hd hp with ⟨q, -, rfl, htext⟩ | ⟨q, hq, rfl⟩
  · exact Literal.mentions_smt htext t.level
  · exact Expr.mentions_render (h.emittable q hq) hfns hfresh

end Definitions

section Nested

variable {d : Definition}

/-- The text binds each item once around the output, one a line. -/
structure Shares (t : ValidTrace) (indent : Nat) (text : String) : Prop where
  reads : ∃ es, List.Forall₂ (fun p e => SExpr.read (p.2.text t) = some e) t.items es ∧
    SExpr.read text = some (.lets ((t.items.map fun p => NodeId.smtName t.level p.1).zip es)
      (.atom (NodeId.smtName t.level t.output)))
  lines : lines text =
    t.items.map (fun p =>
      "".pushn ' ' indent ++ s!"(let (({NodeId.smtName t.level p.1} {p.2.text t}))") ++
        ["".pushn ' ' indent ++ NodeId.smtName t.level t.output ++ "".pushn ')' t.items.length]
  /-- Besides, a constant that is spelled like a truth value is taken for one. -/
  names : ∀ n, (words text).count (NodeId.smtName t.level n) =
    (if n ∈ t.items.map (·.1) then 1 else 0) + (t.assignments.flatMap (·.2.args)).count n +
      (if n = t.output then 1 else 0) + t.constants.countP (·.2.truthNode? = some n)

theorem isWhitespace_of_mem_pad (indent : Nat) :
    ∀ c ∈ ("".pushn ' ' indent).toList, c.isWhitespace = true := by
  intro c hc
  rw [toList_pushn] at hc
  rw [List.eq_of_mem_replicate hc]
  rfl

theorem flatMap_nodes (n : NodeId) :
    (t.items.flatMap (·.2.nodes)).count n =
      t.constants.countP (·.2.truthNode? = some n) +
        (t.assignments.flatMap (·.2.args)).count n := by
  rw [items, List.flatMap_append, List.count_append, List.flatMap_map, List.flatMap_map]
  congr 1
  show (t.constants.flatMap fun p => p.2.truthNode?.toList).count n = _
  rw [← List.filterMap_eq_flatMap_toList, List.count_filterMap]
  exact List.countP_congr fun p _ => by simp

/-- More than the output alone is nested. -/
theorem nest_eq_nested (h : ∀ i, t.items ≠ [(t.output, i)]) : t.nest = nested t.items t.output := by
  unfold nest
  split
  · rename_i n i hitems
    rw [if_neg fun hn => h i (by rw [hitems, hn]), hitems]
  · rfl

theorem body_eq_chain (hd : Definition.ofTrace t = .ok d)
    (hne : ∀ i, t.items ≠ [(t.output, i)]) (indent : Nat) :
    d.body indent = chainText ("".pushn ' ' indent)
      (t.items.map fun p => (NodeId.smtName t.level p.1, p.2.text t))
      (NodeId.smtName t.level t.output) t.items.length := by
  rw [body_eq_text hd, nest_eq_nested hne, nested_text, Nat.add_zero]

/-- If the one item is the output, the body is its text. -/
theorem body_eq_item (hd : Definition.ofTrace t = .ok d) {i : Item}
    (hitems : t.items = [(t.output, i)]) (indent : Nat) :
    d.body indent = "".pushn ' ' indent ++ i.text t := by
  have hnest : t.nest = .item i := by
    unfold nest
    rw [hitems]
    exact if_pos rfl
  rw [body_eq_text hd, hnest]
  exact String.append_empty

theorem IsTraceOf.reads_nested (h : t.IsTraceOf c) (hfns : ∀ f ∈ t.freeNames, IsSymbol f)
    (hd : Definition.ofTrace t = .ok d) (hne : ∀ i, t.items ≠ [(t.output, i)]) (indent : Nat) :
    ∃ es, List.Forall₂ (fun p e => SExpr.read (p.2.text t) = some e) t.items es ∧
      Reads (d.body indent) [.lets ((t.items.map fun p => NodeId.smtName t.level p.1).zip es)
        (.atom (NodeId.smtName t.level t.output))] := by
  let es := t.items.map fun p => (SExpr.read (p.2.text t)).getD .nil
  have hread : ∀ p ∈ t.items, Reads (p.2.text t) [(SExpr.read (p.2.text t)).getD .nil] := by
    intro p hp
    obtain ⟨e, he⟩ := h.reads_item hfns hd p hp
    rwa [he.read]
  have hbs : List.Forall₂ (fun b e => IsWord b.1 ∧ Reads b.2 [e])
      (t.items.map fun p => (NodeId.smtName t.level p.1, p.2.text t)) es := by
    rw [List.forall₂_map_left_iff, List.forall₂_map_right_iff, List.forall₂_same]
    exact fun p hp => ⟨NodeId.isWord_smtName t.level p.1, hread p hp⟩
  refine ⟨es, ?_, ?_⟩
  · rw [List.forall₂_map_right_iff, List.forall₂_same]
    exact fun p hp => (hread p hp).read
  · have hchain := reads_lets hbs (NodeId.isWord_smtName t.level t.output)
      (isWhitespace_of_mem_pad indent)
    rw [List.length_map, List.map_map] at hchain
    rw [body_eq_chain hd hne]
    exact hchain

theorem IsTraceOf.lines_nested (h : t.IsTraceOf c) (hfns : ∀ f ∈ t.freeNames, IsSymbol f)
    (hfresh : ∀ f ∈ t.freeNames, ∀ n, f ≠ NodeId.smtName t.level n)
    (hd : Definition.ofTrace t = .ok d) (hne : ∀ i, t.items ≠ [(t.output, i)]) (indent : Nat) :
    lines (d.body indent) =
      t.items.map (fun p =>
        "".pushn ' ' indent ++ s!"(let (({NodeId.smtName t.level p.1} {p.2.text t}))") ++
          ["".pushn ' ' indent ++ NodeId.smtName t.level t.output ++
            "".pushn ')' t.items.length] := by
  have hpad : '\n' ∉ ("".pushn ' ' indent).toList := by
    rw [toList_pushn]
    exact fun hmem => absurd (List.eq_of_mem_replicate hmem) (by decide)
  have hclose : '\n' ∉ ("".pushn ')' t.items.length).toList := by
    rw [toList_pushn]
    exact fun hmem => absurd (List.eq_of_mem_replicate hmem) (by decide)
  have hname (n : NodeId) : '\n' ∉ (NodeId.smtName t.level n).toList :=
    newline_not_mem_of_isWord (NodeId.isWord_smtName t.level n)
  have htext (p) (hp : p ∈ t.items) : '\n' ∉ (p.2.text t).toList :=
    (h.mentions_item hfns hfresh hd p hp).line
  have hlines : d.body indent = "\n".intercalate (t.items.map (fun p =>
      "".pushn ' ' indent ++ s!"(let (({NodeId.smtName t.level p.1} {p.2.text t}))") ++
        ["".pushn ' ' indent ++ NodeId.smtName t.level t.output ++
          "".pushn ')' t.items.length]) := by
    rw [body_eq_chain hd hne, chainText, List.map_map]
    congr 2
    exact List.map_congr_left fun p _ => text_ext (by simp)
  rw [hlines]
  refine lines_intercalate ?_ (by simp)
  intro s hs
  rcases List.mem_append.1 hs with hs | hs
  · obtain ⟨p, hp, rfl⟩ := List.mem_map.1 hs
    simp [hpad, hname, htext p hp]
  · rw [List.mem_singleton.1 hs]
    simp [hpad, hname, hclose]

/-- No node is bound twice. -/
theorem IsTraceOf.items_nodup (h : t.IsTraceOf c) : (t.items.map (·.1)).Nodup := by
  have hids : t.items.map (·.1) = t.constants.map (·.1) ++ t.assignments.map (·.1) := by
    rw [items, List.map_append, List.map_map, List.map_map]
    rfl
  have htargets : (c.assignments.map (·.1)).Nodup := h.arena.targets_increasing.imp Nat.ne_of_lt
  rw [hids, h.assignments]
  refine List.nodup_append.2 ⟨h.constants_nodup, htargets, fun n hn m hm hnm => ?_⟩
  obtain ⟨p, hp, rfl⟩ := List.mem_map.1 hn
  exact h.arena.disjoint.2 p.1 (List.mem_map_of_mem (h.mem_constants hp)) (hnm ▸ hm)

theorem IsTraceOf.shares (h : t.IsTraceOf c) (hfns : ∀ f ∈ t.freeNames, IsSymbol f)
    (hfresh : ∀ f ∈ t.freeNames, ∀ n, f ≠ NodeId.smtName t.level n)
    (hd : Definition.ofTrace t = .ok d) (hne : ∀ i, t.items ≠ [(t.output, i)]) (indent : Nat) :
    t.Shares indent (d.body indent) where
  reads := by
    obtain ⟨es, hes, hread⟩ := h.reads_nested hfns hd hne indent
    exact ⟨es, hes, hread.read⟩
  lines := h.lines_nested hfns hfresh hd hne indent
  names n := by
    rw [body_eq_chain hd hne, count_chain (isWhitespace_of_mem_pad indent)
      (h.mentions_item hfns hfresh hd), h.items_nodup.count, flatMap_nodes, List.count_singleton]
    have houtput : (if t.output == n then 1 else 0) = if n = t.output then 1 else 0 :=
      if_congr (by rw [beq_iff_eq, eq_comm]) rfl rfl
    rw [houtput]
    omega

/-- A well-formed literal that is spelled like a truth value is the truth value, which is not
bound. -/
theorem IsTraceOf.truthNode?_eq_none (h : t.IsTraceOf c) {p : NodeId × Literal}
    (hp : p ∈ t.constants) (hp' : p.2.WellFormed) : p.2.truthNode? = none := by
  rw [h.constants] at hp
  obtain ⟨hc, hkept⟩ := List.mem_filter.1 hp
  obtain ⟨n, kind, payload⟩ := p
  cases payload with
  | bool b =>
    cases kind with
    | bool =>
      have hnode : ∃ m, NodeId.isTruthValue m = true ∧ (m, .bool b) ∈ c.constants := by
        cases b with
        | false => exact ⟨_, rfl, h.arena.falsity⟩
        | true => exact ⟨_, rfl, h.arena.truth⟩
      obtain ⟨m, hm, hmem⟩ := hnode
      have hn := (h.arena.constIds_iff (.bool b) n).2 hc
      rw [(h.arena.constIds_iff (.bool b) m).2 hmem] at hn
      cases hn
      simp [hm] at hkept
    | _ => cases hp'
  | _ => rfl

end Nested

end ValidTrace

namespace World

/-- The body spells the graph with its sharing. A constant whose payload is none of its kind is
spelled too, unless the payload is a float. -/
theorem body_spells_graph {w : World} (hw : w.Reachable) {c : Scope} (hc : c ∈ w.scopes)
    {context : String} {expected : Kind} {t : ValidTrace}
    (ht : c.finish.validate context expected = .ok t) (hfns : ∀ f ∈ t.freeNames, IsSymbol f)
    (hfresh : ∀ f ∈ t.freeNames, ∀ n, f ≠ NodeId.smtName t.level n) :
    (t.constants.map (·.1)).Pairwise (· < ·) ∧ (t.assignments.map (·.1)).Pairwise (· < ·) ∧
    ((∃ d, Definition.ofTrace t = .ok d) ↔
      ∀ p ∈ t.constants, ∀ x, p.2.payload = .float x → p.2.kind.isFloat = true) ∧
    (∀ p ∈ t.constants, p.2.WellFormed → p.2.truthNode? = none) ∧
    ∀ d, Definition.ofTrace t = .ok d → ∀ indent,
      Balanced (d.body indent) ∧
      (∀ i, t.items = [(t.output, i)] → d.body indent = "".pushn ' ' indent ++ i.text t) ∧
      ((∀ i, t.items ≠ [(t.output, i)]) → t.Shares indent (d.body indent)) := by
  have htrace := isTraceOf hw hc ht
  refine ⟨?_, ?_, ValidTrace.exists_definition_iff,
    fun p hp hp' => htrace.truthNode?_eq_none hp hp', fun d hd indent => ⟨?_, fun i hi =>
      ValidTrace.body_eq_item hd hi indent, fun hne => htrace.shares hfns hfresh hd hne indent⟩⟩
  · rw [htrace.constants]
    exact htrace.arena.constants_increasing.sublist (List.filter_sublist.map _)
  · rw [htrace.assignments]
    exact htrace.arena.targets_increasing
  · by_cases hone : ∃ i, t.items = [(t.output, i)]
    · obtain ⟨i, hi⟩ := hone
      obtain ⟨e, he⟩ := htrace.reads_item hfns hd (t.output, i) (hi ▸ List.mem_singleton_self _)
      rw [ValidTrace.body_eq_item hd hi]
      exact (he.indent rfl (ValidTrace.isWhitespace_of_mem_pad indent)).balanced
    · obtain ⟨es, -, hread⟩ := htrace.reads_nested hfns hd (not_exists.1 hone) indent
      exact hread.balanced

/-- A function of the input added to a constant: each of the three nodes is bound on a line. -/
theorem body_spells_graph_call :
    ∃ d, Definition.ofTrace callTrace = .ok d ∧ ∀ indent,
      Balanced (d.body indent) ∧ callTrace.Shares indent (d.body indent) := by
  have hc : callInFork.scopes[1]? = some callScope := rfl
  have ht : callScope.finish.validate "lambda" (.unsigned 8) = .ok callTrace := rfl
  have hx := callTrace_expressible
  obtain ⟨-, -, hspelled, -, hbody⟩ := body_spells_graph callInFork_reachable
    (List.mem_of_getElem? hc) ht hx.symbols hx.fresh
  have hconstants : callTrace.constants = [(4, .word false 8 5)] := by decide
  have hfloat : ∀ p ∈ callTrace.constants, ∀ x, p.2.payload = .float x →
      p.2.kind.isFloat = true := by
    rw [hconstants]
    intro p hp x hx
    rw [List.mem_singleton.1 hp] at hx
    cases hx
  have hitems : callTrace.items.length = 3 := rfl
  obtain ⟨d, hd⟩ := hspelled.2 hfloat
  refine ⟨d, hd, fun indent => ?_⟩
  obtain ⟨hbalanced, -, hshares⟩ := hbody d hd indent
  refine ⟨hbalanced, hshares fun i hi => ?_⟩
  rw [hi] at hitems
  cases hitems

end World

end SmtLowering
