import SmtLowering.Proofs.Recorded
import SmtLowering.Proofs.Sorts
import SmtLowering.Proofs.Terms
import SmtLowering.Proofs.Values

/-!
# Symbols of operators

`Op.symbol` and `Op.indices` are the symbol that an operator is spelled with over a domain;
`Interpretation.symbol_eq_denote` says that the theories mean by it what the operator does, whatever
the values of its operands. So the term of an expression (`Expr.term`) has the expression's value
where the names of its operands have theirs (`Expr.eval_term`).
-/

namespace SmtLowering

namespace Op

def symbol (op : Op) (domain : Kind) : String :=
  match op with
  | .zeroExtend _ => "zero_extend"
  | .signExtend _ => "sign_extend"
  | .extract .. | .testBit _ => "extract"
  | op => Expr.head op domain

def indices : Op → List Nat
  | .zeroExtend count | .signExtend count => [count]
  | .extract hi lo => [hi, lo]
  | .testBit i => [i, i]
  | _ => []

/-- The symbol is no truth value. -/
theorem symbol_mem_drop {op : Op} (hop : op.isNamed = false) (domain : Kind) :
    op.symbol domain ∈ theoryNames.drop 2 := by
  cases op with
  | apply name | table id | arrayRef id => cases hop
  | not | and | or | xor | add | sub | mul | neg =>
    simp only [symbol, Expr.head_not, Expr.head_and, Expr.head_or, Expr.head_xor, Expr.head_add,
      Expr.head_sub, Expr.head_mul, Expr.head_neg]
    split_ifs <;> decide
  | eq =>
    simp only [symbol, Expr.head_eq]
    split_ifs <;> decide
  | lt | le | gt | ge | div =>
    simp only [symbol, Expr.head_lt, Expr.head_le, Expr.head_gt, Expr.head_ge, Expr.head_div]
    split_ifs <;> decide
  | _ => exact List.elem_iff.1 rfl

theorem symbol_mem {op : Op} (hop : op.isNamed = false) (domain : Kind) :
    op.symbol domain ∈ theoryNames := List.mem_of_mem_drop (symbol_mem_drop hop domain)

end Op

namespace Interpretation

variable {U : Type} (I : Interpretation U) {op : Op} {ds : List (Datum U)}

/-- A symbol of a theory does what the operator does that is spelled with it. -/
theorem symbol_eq_denote (hop : op.isNamed = false) (hbit : ∀ i, op ≠ .testBit i)
    (hds : op.Takes ds.length) (domain : Kind) :
    I.symbol (op.symbol domain) op.indices ds = I.denote op domain ds := by
  have one (h : op.arity? = some 1) : ∃ a, ds = [a] := List.length_eq_one_iff.1 (hds 1 h)
  have two (h : op.arity? = some 2) : ∃ a b, ds = [a, b] := List.length_eq_two.1 (hds 2 h)
  have three (h : op.arity? = some 3) : ∃ a b c, ds = [a, b, c] := List.length_eq_three.1 (hds 3 h)
  cases op with
  | apply name | table id | arrayRef id => cases hop
  | testBit i => exact absurd rfl (hbit i)
  | not =>
    obtain ⟨a, rfl⟩ := one rfl
    simp only [Op.symbol, Expr.head_not]
    show _ = if _ then _ else _
    split_ifs <;> rfl
  | neg =>
    obtain ⟨a, rfl⟩ := one rfl
    simp only [Op.symbol, Expr.head_neg]
    show _ = if _ then _ else _
    split_ifs <;> rfl
  | zeroExtend count | signExtend count =>
    obtain ⟨a, rfl⟩ := one rfl
    rfl
  | extract hi lo =>
    obtain ⟨a, rfl⟩ := one rfl
    cases a <;> rfl
  | ite =>
    obtain ⟨c, t, e, rfl⟩ := three rfl
    cases c <;> rfl
  | select =>
    obtain ⟨a, i, rfl⟩ := two rfl
    cases a <;> rfl
  | eq =>
    obtain ⟨a, b, rfl⟩ := two rfl
    simp only [Op.symbol, Expr.head_eq]
    show _ = if _ then _ else _
    split_ifs <;> rfl
  | and | or | xor | add | sub | mul =>
    obtain ⟨a, b, rfl⟩ := two rfl
    simp only [Op.symbol, Expr.head_and, Expr.head_or, Expr.head_xor, Expr.head_add,
      Expr.head_sub, Expr.head_mul]
    show _ = if _ then _ else _
    split_ifs <;> rfl
  | lt | le | gt | ge =>
    obtain ⟨a, b, rfl⟩ := two rfl
    simp only [Op.symbol, Expr.head_lt, Expr.head_le, Expr.head_gt, Expr.head_ge]
    show _ = if _ then (if _ then _ else _) else if _ then _ else _
    split_ifs <;> rfl
  | div =>
    obtain ⟨a, b, rfl⟩ := two rfl
    simp only [Op.symbol, Expr.head_div]
    show _ = if _ then (if _ then _ else _) else if _ then _ else _
    by_cases hf : domain.isFloat = true
    · have hi : domain ≠ .int := by
        rintro rfl
        cases hf
      split_ifs <;> rfl
    · split_ifs <;> rfl
  | implies | neq | umulNoOverflow | smulNoOverflow | smulNoUnderflow =>
    obtain ⟨a, b, rfl⟩ := two rfl
    rfl

end Interpretation

namespace Expr

/-- The term that an expression is spelled as. -/
def term (nameOf : NodeId → String) (e : Expr) : Term :=
  let args := e.args.map fun n => Term.name (nameOf n)
  match e.op with
  | .apply f => if e.args = [] then .name f else .apply f [] args
  | .testBit i => .apply "=" [] [.apply "extract" [i, i] args, .literal (.word false 1 1)]
  | op => .apply (op.symbol e.domain) op.indices args

/-- The operator has its operands and is that of a theory or the application of a name in `fns`. -/
structure Emittable (fns : List String) (e : Expr) : Prop where
  takes : e.op.Takes e.args.length
  named : e.op.isNamed = true → ∃ f ∈ fns, e.op = .apply f

theorem Emittable.op_cases {fns : List String} {e : Expr} (h : e.Emittable fns) :
    (∃ f ∈ fns, e.op = .apply f) ∨ (∃ i, e.op = .testBit i) ∨
      e.op.isNamed = false ∧ ∀ i, e.op ≠ .testBit i := by
  cases hn : e.op.isNamed with
  | true => exact .inl (h.named hn)
  | false =>
    by_cases ht : ∃ i, e.op = .testBit i
    · exact .inr (.inl ht)
    · exact .inr (.inr ⟨rfl, not_exists.1 ht⟩)

theorem term_apply {nameOf : NodeId → String} {e : Expr} {f : String} (h : e.op = .apply f) :
    e.term nameOf =
      if e.args = [] then .name f else .apply f [] (e.args.map fun n => .name (nameOf n)) := by
  simp only [term, h]

theorem term_testBit {nameOf : NodeId → String} {e : Expr} {i : Nat} (h : e.op = .testBit i) :
    e.term nameOf = .apply "=" [] [.apply "extract" [i, i] (e.args.map fun n => .name (nameOf n)),
      .literal (.word false 1 1)] := by
  simp only [term, h]

theorem term_theory {nameOf : NodeId → String} {e : Expr} (h : e.op.isNamed = false)
    (ht : ∀ i, e.op ≠ .testBit i) :
    e.term nameOf =
      .apply (e.op.symbol e.domain) e.op.indices (e.args.map fun n => .name (nameOf n)) := by
  obtain ⟨op, domain, args⟩ := e
  cases op with
  | apply name | table id | arrayRef id => cases h
  | testBit i => exact absurd rfl (ht i)
  | _ => rfl

section Value

variable {U : Type} {I : Interpretation U} {env : Term.Env U} {nameOf : NodeId → String}
  {v : NodeId → Option (Datum U)} {e : Expr} {fns : List String}

theorem evalAll_names {args : List NodeId}
    (h : ∀ a ∈ args, (Term.name (nameOf a)).eval I env = v a) :
    Term.evalAll I env (args.map fun n => .name (nameOf n)) = args.mapM v := by
  induction args with
  | nil => rfl
  | cons a as ih =>
    have ih := ih fun b hb => h b (List.mem_cons_of_mem _ hb)
    rw [List.map_cons, Term.evalAll, h a List.mem_cons_self, ih, List.mapM_cons]
    cases v a <;> cases as.mapM v <;> rfl

theorem length_of_mapM {args : List NodeId} {ds : List (Datum U)} (h : args.mapM v = some ds) :
    ds.length = args.length := by
  induction args generalizing ds with
  | nil =>
    cases h
    rfl
  | cons a as ih =>
    rw [List.mapM_cons] at h
    obtain ⟨d, -, h⟩ := Option.bind_eq_some_iff.1 h
    obtain ⟨ds', hds, h⟩ := Option.bind_eq_some_iff.1 h
    cases h
    rw [List.length_cons, ih hds, List.length_cons]

theorem bit_eq_one {n : Nat} (x : BitVec n) (i : Nat) :
    (Datum.word (x.extractLsb' i (i - i + 1)) : Datum U) = .word 1#1 ↔ x.getLsbD i = true := by
  have hone : i - i + 1 = 1 := by omega
  rw [hone, Datum.word.injEq, heq_iff_eq]
  simp only [true_and]
  constructor
  · intro h
    have hbit := congrArg (fun y : BitVec 1 => y.getLsbD 0) h
    simpa using hbit
  · intro h
    apply BitVec.eq_of_getLsbD_eq
    intro j hj
    have hj : j = 0 := by omega
    simp [hj, h]

/-- Comparing the extracted bit is to test it. -/
theorem eval_bit (I : Interpretation U) (i : Nat) (domain : Kind) (d : Datum U) :
    ((I.symbol "extract" [i, i] [d]).bind fun x => I.symbol "=" [] [x, .word 1#1]) =
      d.unary (.testBit i) domain := by
  classical
  cases d with
  | @word n x =>
    show (if i ≤ i ∧ i < n then some (Datum.word (x.extractLsb' i (i - i + 1))) else none).bind
        (fun y => some (Datum.bool (decide (y = .word 1#1)))) =
      if i < n then some (.bool (x.getLsbD i)) else none
    by_cases hi : i < n
    · rw [if_pos ⟨Nat.le_refl i, hi⟩, if_pos hi, Option.bind_some]
      simp only [bit_eq_one, Bool.decide_eq_true]
    · rw [if_neg fun h => hi h.2, if_neg hi]
      rfl
  | _ => rfl

/-- The term's value is the expression's, where the operands' names have the operands' values. -/
theorem eval_term (he : e.Emittable fns) (hfns : ∀ f ∈ fns, f ∉ theoryNames)
    (henv : ∀ f ∈ fns, env.lookup f = none)
    (hargs : ∀ a ∈ e.args, (Term.name (nameOf a)).eval I env = v a) :
    (e.term nameOf).eval I env = Graph.exprValue I v e := by
  have hall := evalAll_names hargs
  rcases he.op_cases with ⟨f, hf, hop⟩ | ⟨i, hop⟩ | ⟨hop, hbit⟩
  · rw [term_apply hop, Graph.exprValue, hop]
    split_ifs with hnil
    · simp only [Term.eval, henv f hf, hnil, I.symbol_of_not_mem (hfns f hf)]
      rfl
    · rw [Term.eval, hall]
      exact congrArg _ (funext fun ds => I.symbol_of_not_mem (hfns f hf) ds)
  · have htakes := he.takes 1 (by rw [hop]; rfl)
    obtain ⟨a, ha⟩ := List.length_eq_one_iff.1 htakes
    have hmap : e.args.mapM v = (v a).bind fun d => some [d] := by
      rw [ha, List.mapM_cons, List.mapM_nil]
      rfl
    have hone : I.literal (.word false 1 1) = some (.word 1#1) := rfl
    rw [term_testBit hop, Graph.exprValue, hop, hmap]
    simp only [Term.eval, Term.evalAll, hall, hmap, hone]
    cases v a with
    | none => rfl
    | some d =>
      refine Eq.trans ?_ (eval_bit I i e.domain d)
      simp only [Option.bind_some, Option.map_some]
      cases I.symbol "extract" [i, i] [d] with
      | none => rfl
      | some x => rfl
  · rw [term_theory hop hbit, Term.eval, hall, Graph.exprValue]
    rcases hds : e.args.mapM v with _ | ds
    · rfl
    · have htakes := he.takes
      rw [← length_of_mapM hds] at htakes
      exact I.symbol_eq_denote hop hbit htakes e.domain

theorem closed_term {vars : List String} (he : e.Emittable fns)
    (hargs : ∀ a ∈ e.args, nameOf a ∈ vars ∨ nameOf a ∈ theoryNames) :
    (e.term nameOf).ClosedOver vars fns := by
  have hall : Term.AllClosedOver vars fns (e.args.map fun n => .name (nameOf n)) := by
    generalize e.args = args at hargs
    induction args with
    | nil => trivial
    | cons a as ih =>
      refine ⟨?_, ih fun b hb => hargs b (List.mem_cons_of_mem _ hb)⟩
      rcases hargs a List.mem_cons_self with h | h
      · exact .inl h
      · exact .inr (.inl h)
  rcases he.op_cases with ⟨f, hf, hop⟩ | ⟨i, hop⟩ | ⟨hop, hbit⟩
  · rw [term_apply hop]
    split_ifs
    · exact .inr (.inr hf)
    · exact ⟨.inr hf, hall⟩
  · rw [term_testBit hop]
    refine ⟨.inl (by decide), ⟨.inl (by decide), hall⟩, trivial, trivial⟩
  · rw [term_theory hop hbit]
    exact ⟨.inl (Op.symbol_mem hop e.domain), hall⟩

end Value

end Expr

end SmtLowering
