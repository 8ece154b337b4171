import SmtLowering.Proofs.Folding
import SmtLowering.Proofs.Soundness

/-!
# Folding and text

The literal that folding gives is the one that the text of the application denotes: the operator as
it is spelled over the domain, read back and evaluated where the operands' names have the values of
the operands (`Expr.folds_to_meaning`). So a scope that folds and one that records a node describe
one value.
-/

namespace SmtLowering

namespace Expr

variable {U : Type} (I : Interpretation U) (L : Literals) (nameOf : NodeId → String)
  (env : Term.Env U)

/-- The text of the expression reads as a term with the literal's value. -/
def Denotes (e : Expr) (c : Literal) : Prop :=
  ∃ t d, ReadsAs L none (e.render nameOf) t ∧ t.eval I env = some d ∧ I.literal c = some d

variable {I L nameOf env} {op : Op} {c d r : Literal} {k : Kind} {m n : NodeId}

/-- An operator with a rule for its operands is one of a theory, applied to as many as it takes. -/
theorem emittable_of_kind? {domain : Kind} {ks : List Kind} {args : List NodeId}
    (hk : op.kind? domain ks = some k) (hlen : args.length = ks.length) :
    Emittable [] ⟨op, domain, args⟩ := by
  cases Op.kinded hk <;>
    exact ⟨fun n hn => hlen.trans (Option.some.inj hn), fun hnamed => by cases hnamed⟩

/-- The text of an expression over named operands has the value of its operator. -/
theorem denotes_of_denote {e : Expr} {ds : List (Datum U)} {x : Datum U} (he : e.Emittable [])
    (hnames : ∀ n, IsName (nameOf n))
    (hargs : e.args.mapM (fun n => (Term.name (nameOf n)).eval I env) = some ds)
    (hx : I.denote e.op e.domain ds = some x) (hr : I.literal r = some x) :
    e.Denotes I L nameOf env r := by
  refine ⟨e.term nameOf, x, readsAs_render he (by simp) hnames vacant_none, ?_, hr⟩
  have heval : (e.term nameOf).eval I env = _ :=
    eval_term he (by simp) (by simp) fun a _ => rfl
  rw [heval, Graph.exprValue, hargs]
  exact hx

/-- A well-formed literal under an operator folds to what the text of the application means. -/
theorem foldUnary_denotes (hnames : ∀ n, IsName (nameOf n)) (hc : c.WellFormed)
    (hk : op.kind? c.kind [c.kind] = some k)
    (hm : (Term.name (nameOf m)).eval I env = I.literal c) :
    ∃ r, foldUnary op c k = some r ∧ r.HasKind k ∧
      (⟨op, c.kind, [m]⟩ : Expr).Denotes I L nameOf env r := by
  obtain ⟨r, hr⟩ := Option.isSome_iff_exists.1 (foldUnary_isSome hc hk)
  obtain ⟨x, hx⟩ := exists_literal I hc
  have htyped := foldUnary_typed hc hk hr
  obtain ⟨y, hy⟩ := exists_literal I htyped.1
  have hvalue : x.unary op c.kind = some y := (foldUnary_value I hc hk hr hx).symm.trans hy
  refine ⟨r, hr, htyped, denotes_of_denote (emittable_of_kind? hk rfl) hnames
    (?_ : _ = some [x]) ?_ hy⟩
  · rw [List.mapM_cons, hm, hx]
    rfl
  · exact (denote_unary I hk).trans hvalue

theorem foldBinary_denotes (hnames : ∀ n, IsName (nameOf n)) (hc : c.WellFormed)
    (hd : d.WellFormed) (he : c.kind = d.kind) (hf : c.kind.isFloat = false)
    (hk : op.kind? c.kind [c.kind, d.kind] = some k)
    (hm : (Term.name (nameOf m)).eval I env = I.literal c)
    (hn : (Term.name (nameOf n)).eval I env = I.literal d) (hr : foldBinary op c d k = some r) :
    r.HasKind k ∧ (⟨op, c.kind, [m, n]⟩ : Expr).Denotes I L nameOf env r := by
  obtain ⟨x, hx⟩ := exists_literal I hc
  obtain ⟨y, hy⟩ := exists_literal I hd
  have htyped := foldBinary_typed hc hd he hk hr
  obtain ⟨z, hz⟩ := exists_literal I htyped.1
  have hvalue := (foldBinary_value I hc hd he hf hk hr hx hy).symm.trans hz
  refine ⟨htyped, denotes_of_denote (emittable_of_kind? hk rfl) hnames
    (?_ : _ = some [x, y]) ?_ hz⟩
  · rw [List.mapM_cons, hm, hx, List.mapM_cons, hn, hy]
    rfl
  · rw [← he] at hk
    exact (denote_binary I hk).trans hvalue

/-- Folding agrees with the text: under the rule of an operator, over a kind that is not of floats,
what it gives is the value of the application as it is spelled, and only a quotient of numbers by
zero is left open. -/
theorem folds_to_meaning (hnames : ∀ n, IsName (nameOf n)) (op : Op) (hc : c.WellFormed)
    (hf : c.kind.isFloat = false) (hm : (Term.name (nameOf m)).eval I env = I.literal c) :
    (∀ k, op.kind? c.kind [c.kind] = some k →
      ∃ r, foldUnary op c k = some r ∧ r.HasKind k ∧
        (⟨op, c.kind, [m]⟩ : Expr).Denotes I L nameOf env r) ∧
    ∀ d n k, d.WellFormed → c.kind = d.kind → op.kind? c.kind [c.kind, d.kind] = some k →
      (Term.name (nameOf n)).eval I env = I.literal d →
      (∀ r, foldBinary op c d k = some r →
        r.HasKind k ∧ (⟨op, c.kind, [m, n]⟩ : Expr).Denotes I L nameOf env r) ∧
      (foldBinary op c d k = none ↔ op = .div ∧ (d = .int 0 ∨ d = .real 0)) :=
  ⟨fun _ hk => foldUnary_denotes hnames hc hk hm, fun _ _ _ hd he hk hn =>
    ⟨fun _ hr => foldBinary_denotes hnames hc hd he hf hk hm hn hr,
      foldBinary_eq_none_iff hc hd he hk⟩⟩

section Least

/-- The least signed byte, and minus one. -/
def leastByteEnv : Term.Env SmtSort :=
  [("s2", some (.word (-128#8))), ("s3", some (.word (-1#8)))]

/-- The least byte is its own negation, and its own quotient by minus one. -/
theorem folds_to_meaning_least :
    (∃ r, foldUnary .neg (.word true 8 (-128)) (.signed 8) = some r ∧ r.HasKind (.signed 8) ∧
      (⟨.neg, .signed 8, [2]⟩ : Expr).Denotes (.sample fun _ => none) (fun _ _ => none)
        (NodeId.smtName 0) leastByteEnv r) ∧
    (⟨.div, .signed 8, [2, 3]⟩ : Expr).Denotes (.sample fun _ => none) (fun _ _ => none)
      (NodeId.smtName 0) leastByteEnv (.word true 8 (-128)) := by
  have hname := ValidTrace.isName_smtName 0
  have hc := Literal.word_wellFormed true 8 (-128)
  have hm : (Term.name (NodeId.smtName 0 2)).eval (.sample fun _ => none) leastByteEnv =
      (Interpretation.sample fun _ => none).literal (.word true 8 (-128)) := rfl
  have hneg := (folds_to_meaning (L := fun _ _ => none) hname .neg hc rfl hm).1 _ rfl
  have hdiv := (folds_to_meaning (L := fun _ _ => none) hname .div hc rfl hm).2
    (.word true 8 (-1)) 3 _ (Literal.word_wellFormed true 8 (-1)) rfl rfl rfl
  exact ⟨hneg, (hdiv.1 _ rfl).2⟩

end Least

end Expr

end SmtLowering
