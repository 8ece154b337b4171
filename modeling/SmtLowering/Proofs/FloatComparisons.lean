import SmtLowering.Expr
import SmtLowering.Fold
import SmtLowering.Proofs.FloatLiterals

/-!
# Folded comparisons of floats

A comparison of constants is folded on their words, while its text compares the numbers that their
literals are rounded to. Rounding keeps the order of two numbers or makes them equal, so the two
differ exactly where it matters to the operator that they are made equal, and where `distinct` tells
apart what is equal or takes NaN for itself (`Literal.folds_as_spelled_iff`).
-/

namespace SmtLowering

namespace SExpr

/-- A relation of two terms of one floating-point sort. -/
def floatTest? : SExpr → Option Bool
  | .cons (.atom name) (.cons s (.cons t .nil)) =>
    match float? s, float? t with
    | some (F, X), some (G, Y) => if F = G then FloatDatum.test? name X Y else none
    | _, _ => none
  | _ => none

end SExpr

section Orders

/-- The comparison, but for `!=`, holds of two numbers in this order. -/
def Op.holdsOf (op : Op) (o : Ordering) : Bool := if op = .eq then o == .eq else holdsIn op o

/-- Where a comparison of words differs from that of the numbers `X` and `Y` they are spelled as. -/
def Op.Diverges (op : Op) (x y : Binary64) (X Y : FloatDatum) : Prop :=
  match op with
  | .neq =>
    (x.isNaN = true ∧ y.isNaN = true) ∨ (x.isZero = true ∧ y.isZero = true ∧ x ≠ y) ∨
      ((x.compare? y).any (· != .eq) = true ∧ X = Y)
  | op => (x.compare? y).any (fun o => op.holdsOf o != op.holdsOf .eq) = true ∧
      X.compare? Y = some .eq

variable {op : Op} {x y : Binary64} {X Y : FloatDatum} {A B : Option Ordering}

/-- What makes some orders equal changes what tells them from equality. -/
theorem any_eq_any_iff (f : Ordering → Bool) (h : B = A ∨ A.isSome ∧ B = some .eq) :
    A.any f = B.any f ↔ ¬(A.any (fun o => f o != f .eq) = true ∧ B = some .eq) := by
  rcases h with rfl | ⟨hA, rfl⟩
  · cases B with
    | none => simp
    | some o => cases o <;> simp
  · obtain ⟨o, rfl⟩ := Option.isSome_iff_exists.1 hA
    simp

end Orders

section Agreement

variable {op : Op} {x y : Binary64} {F : FloatFormat} {mode : RoundingMode}

theorem foldBinary_float (hop : op.isComparison = true) (hneq : op ≠ .neq) (exp sig : ℕ) :
    foldBinary op (.float exp sig x) (.float exp sig y) .bool =
      some (.bool ((x.compare? y).any op.holdsOf)) := by
  cases op with
  | eq =>
    show some (Literal.bool (x.compare? y == some .eq)) =
      some (Literal.bool ((x.compare? y).any (· == .eq)))
    cases x.compare? y <;> rfl
  | neq => exact absurd rfl hneq
  | lt | le | gt | ge => rfl
  | _ => cases hop

theorem test?_head (hop : op.isComparison = true) (hneq : op ≠ .neq) (exp sig : ℕ)
    (X Y : FloatDatum) :
    FloatDatum.test? (Expr.head op (.float exp sig)) X Y =
      some ((X.compare? Y).any op.holdsOf) := by
  cases op with
  | neq => exact absurd rfl hneq
  | eq | lt | le | gt | ge => rfl
  | _ => cases hop

theorem Binary64.any_ne_eq_iff : (x.compare? y).any (· != .eq) = true ↔
    x.isNaN = false ∧ y.isNaN = false ∧ ¬x.equal y = true := by
  rw [Binary64.equal]
  by_cases h : (x.isNaN || y.isNaN) = true
  · rw [compare?_of_isNaN h]
    rw [Bool.or_eq_true] at h
    rcases h with h | h <;> simp [h]
  · simp only [Bool.not_eq_true, Bool.or_eq_false_iff] at h
    rw [compare?_of_not_isNaN h.1 h.2]
    simp [h.1, h.2]

theorem agrees_iff (hneq : op ≠ .neq) :
    (x.compare? y).any op.holdsOf =
        ((F.round mode x.datum).compare? (F.round mode y.datum)).any op.holdsOf ↔
      ¬op.Diverges x y (F.round mode x.datum) (F.round mode y.datum) := by
  have hround := F.compare?_round mode x.datum_proper y.datum_proper
  rw [Binary64.compare?_datum] at hround
  rw [any_eq_any_iff _ hround]
  cases op <;> first | exact absurd rfl hneq | rfl

theorem round_datum_eq_nan_iff : F.round mode x.datum = .nan ↔ x.isNaN = true := by
  rw [Binary64.datum]
  split_ifs with h <;> simp [h, FloatFormat.round_number]

/-- The zeros are told apart. -/
theorem round_datum_ne_of_isZero (hx : x.isZero = true) (hy : y.isZero = true) (hne : x ≠ y) :
    F.round mode x.datum ≠ F.round mode y.datum := by
  have hdatum {z : Binary64} (hz : z.isZero = true) : z.datum = .number z.negative 0 := by
    rw [Binary64.datum, Binary64.isNaN_of_isZero hz,
      Binary64.extent_eq_zero_iff.2 (Binary64.isZero_iff.1 hz)]
    rfl
  rw [hdatum hx, hdatum hy, FloatFormat.round_number, FloatFormat.round_number]
  exact fun heq => hne (Binary64.eq_of_isZero hx hy (FloatDatum.number.inj heq).1)

theorem neq_agrees_iff :
    (!x.equal y) = decide (F.round mode x.datum ≠ F.round mode y.datum) ↔
      ¬Op.neq.Diverges x y (F.round mode x.datum) (F.round mode y.datum) := by
  have hiff : (!x.equal y) = decide (F.round mode x.datum ≠ F.round mode y.datum) ↔
      (x.equal y = true ↔ F.round mode x.datum = F.round mode y.datum) := by
    rw [Bool.eq_iff_iff, Bool.not_eq_true', ← Bool.not_eq_true, decide_eq_true_eq, not_iff_not]
  rw [hiff, Op.Diverges, Binary64.any_ne_eq_iff, Binary64.equal_iff]
  cases hx : x.isNaN with
  | true =>
    have hX : F.round mode x.datum = .nan := round_datum_eq_nan_iff.2 hx
    have hzero : ¬x.isZero = true := fun h => by simp [Binary64.isNaN_of_isZero h] at hx
    rw [hX, eq_comm (a := FloatDatum.nan), round_datum_eq_nan_iff]
    simp [hzero]
  | false =>
    cases hy : y.isNaN with
    | true =>
      have hY : F.round mode y.datum = .nan := round_datum_eq_nan_iff.2 hy
      have hzero : ¬y.isZero = true := fun h => by simp [Binary64.isNaN_of_isZero h] at hy
      rw [hY, round_datum_eq_nan_iff]
      simp [hx, hzero]
    | false =>
      by_cases heq : x = y
      · simp [heq]
      · by_cases hzero : x.isZero = true ∧ y.isZero = true
        · simp [heq, hzero, round_datum_ne_of_isZero hzero.1 hzero.2 heq]
        · simp only [heq, hzero, ne_eq, not_false_eq_true, and_true, and_false, false_or,
            false_iff, Bool.false_eq_true, true_and]

/-- Where the format holds both numbers, as double precision does, nothing but `!=` of two zeros or
two NaNs diverges. -/
theorem diverges_exact_iff (hx : F.round mode x.datum = x.datum)
    (hy : F.round mode y.datum = y.datum) :
    op.Diverges x y (F.round mode x.datum) (F.round mode y.datum) ↔
      op = .neq ∧ ((x.isNaN = true ∧ y.isNaN = true) ∨
        (x.isZero = true ∧ y.isZero = true ∧ x ≠ y)) := by
  rw [hx, hy]
  by_cases hneq : op = .neq
  · have hmerge : ¬((x.compare? y).any (· != .eq) = true ∧ x.datum = y.datum) := by
      rw [Binary64.any_ne_eq_iff, Binary64.equal_iff]
      rintro ⟨⟨hx, hy, hne⟩, heq⟩
      exact hne ⟨hx, hy, .inl ((Binary64.datum_inj hx hy).1 heq)⟩
    simp only [hneq, Op.Diverges, hmerge, or_false, true_and]
  · have horder : ¬((x.compare? y).any (fun o => op.holdsOf o != op.holdsOf .eq) = true ∧
        x.datum.compare? y.datum = some .eq) := by
      rw [Binary64.compare?_datum]
      rintro ⟨hany, heq⟩
      simp [heq] at hany
    simp only [hneq, false_and, iff_false]
    cases op <;> first | exact absurd rfl hneq | exact horder

end Agreement

section Texts

variable {op : Op} {exp sig : ℕ} {X Y : FloatDatum} {names : NodeId → String} {n m : NodeId}

theorem floatTest?_render (hop : op.isComparison = true)
    (hn : SpellsFloat (names n) ⟨exp, sig⟩ X) (hm : SpellsFloat (names m) ⟨exp, sig⟩ Y) :
    (SExpr.read (Expr.render names ⟨op, .float exp sig, [n, m]⟩)).bind SExpr.floatTest? =
      FloatDatum.test? (Expr.head op (.float exp sig)) X Y := by
  obtain ⟨s, hs, hX⟩ := hn
  obtain ⟨t, ht, hY⟩ := hm
  have hnamed : op.isNamed = false := by
    cases op with
    | eq | neq | lt | le | gt | ge => rfl
    | _ => cases hop
  have hhead : Expr.head op (.float exp sig) = op.symbol (.float exp sig) := by
    cases op with
    | eq | neq | lt | le | gt | ge => rfl
    | _ => cases hop
  have hword := (isWord_of_mem_theoryNames (Op.symbol_mem hnamed (.float exp sig))).1
  rw [← hhead] at hword
  have htext : Expr.render names ⟨op, .float exp sig, [n, m]⟩ =
      "(" ++ (Expr.head op (.float exp sig) ++ " " ++ (names n ++ " " ++ names m)) ++ ")" := by
    rw [Expr.render_eq (by rintro id rfl; cases hop) (by rintro i rfl; cases hop)]
    simp [String.intercalate_cons_cons]
  rw [htext, (reads_apply hword (hs.space ht)).read]
  simp [SExpr.list, SExpr.floatTest?, hX, hY]

end Texts

/-- A comparison of constants folds to what its text says of their literals, unless it tells apart
what is rounded to one number, or `distinct` takes two zeros or two NaNs otherwise. -/
theorem Literal.folds_as_spelled_iff (exp sig : ℕ) (mode : RoundingMode) (x y : Binary64) :
    ∃ s t X Y, (Literal.float exp sig x).smt mode = .ok s ∧
      (Literal.float exp sig y).smt mode = .ok t ∧
      (SExpr.read s).bind SExpr.float? = some (⟨exp, sig⟩, X) ∧
      (SExpr.read t).bind SExpr.float? = some (⟨exp, sig⟩, Y) ∧
      X = FloatFormat.round ⟨exp, sig⟩ mode x.datum ∧
      Y = FloatFormat.round ⟨exp, sig⟩ mode y.datum ∧
      ∀ (op : Op) (names : NodeId → String) (n m : NodeId), op.isComparison = true →
        names n = s → names m = t → ∃ folded spelled,
          foldBinary op (.float exp sig x) (.float exp sig y) .bool = some (.bool folded) ∧
          (SExpr.read (Expr.render names ⟨op, .float exp sig, [n, m]⟩)).bind SExpr.floatTest? =
            some spelled ∧
          (folded = spelled ↔ ¬op.Diverges x y X Y) := by
  have hs := spellsFloat_floatSmt exp sig x mode
  have ht := spellsFloat_floatSmt exp sig y mode
  refine ⟨_, _, _, _, rfl, rfl, hs.read, ht.read, rfl, rfl, ?_⟩
  rintro op names n m hop hn hm
  rw [← hn] at hs
  rw [← hm] at ht
  rw [floatTest?_render hop hs ht]
  by_cases hneq : op = .neq
  · subst hneq
    exact ⟨_, _, rfl, rfl, neq_agrees_iff⟩
  · exact ⟨_, _, foldBinary_float hop hneq exp sig, test?_head hop hneq exp sig _ _,
      agrees_iff hneq⟩

/-- The zeros fold to equal, but their literals are distinct. -/
theorem Literal.zeros_fold_otherwise :
    (Literal.float 11 53 ⟨0⟩).smt .nearestEven = .ok "(_ +zero 11 53)" ∧
      (Literal.float 11 53 ⟨0x8000000000000000⟩).smt .nearestEven = .ok "(_ -zero 11 53)" ∧
      foldBinary .neq (.float 11 53 ⟨0⟩) (.float 11 53 ⟨0x8000000000000000⟩) .bool =
        some (.bool false) ∧
      (SExpr.read (Expr.render (fun n => if n = 2 then "(_ +zero 11 53)" else "(_ -zero 11 53)")
        ⟨.neq, .float 11 53, [2, 3]⟩)).bind SExpr.floatTest? = some true := by
  decide +kernel

/-- Two words that are in order are one number of single precision. -/
example :
    (Literal.float 8 24 ⟨0x3fb999999999999a⟩).smt .nearestEven =
        (Literal.float 8 24 ⟨0x3fb999999999999b⟩).smt .nearestEven ∧
      foldBinary .lt (.float 8 24 ⟨0x3fb999999999999a⟩) (.float 8 24 ⟨0x3fb999999999999b⟩) .bool =
        some (.bool true) ∧
      (SExpr.read (Expr.render (fun _ => "(fp #b0 #b01111011 #b10011001100110011001101)")
        ⟨.lt, .float 8 24, [2, 3]⟩)).bind SExpr.floatTest? = some false := by
  decide +kernel

end SmtLowering
