import SmtLowering.Proofs.Floats
import SmtLowering.Proofs.Operands
import SmtLowering.Proofs.SortedRuns

/-!
# Choices

A choice between two values has the value that its condition selects (`World.ite_selects`). It
needs no condition if the values are equal, and equal values are the same, but for the two zeros of
a float format, which are merged into the first one (`Value.Merges`).
-/

namespace SmtLowering

namespace Value

variable {c t e : Value}

/-- Literals that are the two zeros of one float format. -/
def OppositeZeros (t e : Value) : Prop :=
  ∃ exp sig x y, t = .concrete (.float exp sig x) ∧ e = .concrete (.float exp sig y) ∧
    x.isZero = true ∧ y.isZero = true ∧ x.negative ≠ y.negative

theorem OppositeZeros.equal (h : t.OppositeZeros e) : t.equal e = true := by
  obtain ⟨exp, sig, x, y, rfl, rfl, hx, hy, -⟩ := h
  have hequal : x.equal y = true :=
    Binary64.equal_iff.2 ⟨Binary64.isNaN_of_isZero hx, Binary64.isNaN_of_isZero hy, .inr ⟨hx, hy⟩⟩
  simp [Value.equal, Literal.equal, Literal.float, Payload.equal, hequal]

/-- Equal values are the same, or the two zeros. -/
theorem eq_or_zeros_of_equal (ht : t.WellFormed) (he : e.WellFormed) (h : t.equal e = true) :
    t = e ∨ t.OppositeZeros e := by
  cases t with
  | symbolic n k owner => exact .inl (of_decide_eq_true h)
  | concrete a =>
    cases e with
    | symbolic n k owner => exact .inl (of_decide_eq_true h)
    | concrete b =>
      rw [equal, Literal.equal, Bool.and_eq_true, decide_eq_true_eq] at h
      obtain ⟨hk, hp⟩ := h
      cases Literal.WellFormed.canonical ht with
      | float exp sig x =>
        cases Literal.WellFormed.canonical he with
        | float exp' sig' y =>
          cases hk
          obtain ⟨-, -, rfl | ⟨hx, hy⟩⟩ := Binary64.equal_iff.1 hp
          · exact .inl rfl
          · by_cases hs : x.negative = y.negative
            · exact .inl (by rw [Binary64.eq_of_isZero hx hy hs])
            · exact .inr ⟨exp, sig, x, y, rfl, rfl, hx, hy, hs⟩
        | _ => cases hk
      | _ =>
        obtain ⟨kind, q⟩ := b
        obtain rfl := hk
        exact .inl (congrArg (Value.concrete <| Literal.mk _ ·) (of_decide_eq_true hp))

/-- The choice merges the two zeros: its condition is open. -/
def Merges (c t e : Value) : Prop := c.isConcrete = false ∧ t.OppositeZeros e

end Value

namespace Valuation

variable {U : Type} {V : Valuation U} {E : SmtSort → U → Prop} {s : Scope} {c t e : Value}

theorem Sorted.not_foreign {u : Value} (h : V.Sorted E s u) : ¬u.Foreign s.number := by
  obtain ⟨d, hd, -⟩ := h.sort
  cases u with
  | concrete c => exact id
  | symbolic n k owner =>
    intro hne
    rw [value, if_neg hne] at hd
    cases hd

section Plans

variable (hc : c.kind = .bool) (hk : t.kind = e.kind)
include hc hk

/-- A condition that is a literal chooses by itself. -/
theorem plan_ite_of_asBool? {b : Bool} (hb : c.asBool? = some b) :
    Plan.ite c t e = .give (if b then t else e) := by
  have hcond : c.kind.isBool = true := by rw [hc]; rfl
  rw [Plan.ite, Plan.require, if_pos hcond, Plan.sameKind, if_pos hk, hb]
  cases b <;> rfl

theorem plan_ite_of_none (hb : c.asBool? = none) :
    Plan.ite c t e =
      if t.equal e then .give t else .node .ite t.kind [c, t, e] t.kind := by
  have hcond : c.kind.isBool = true := by rw [hc]; rfl
  rw [Plan.ite, Plan.require, if_pos hcond, Plan.sameKind, if_pos hk, hb]

theorem plan_ite_ne_refuse (f : Fault ValueError) : Plan.ite c t e ≠ .refuse f := by
  rcases hb : c.asBool? with _ | b
  · rw [plan_ite_of_none hc hk hb]
    split_ifs <;> exact Plan.noConfusion
  · rw [plan_ite_of_asBool? hc hk hb]
    exact Plan.noConfusion

/-- A choice between a value and itself needs no look at the condition. -/
theorem plan_ite_self (he : t = e) (ht : t.isConcrete = false) : Plan.ite c t e = .give t := by
  subst he
  rcases hb : c.asBool? with _ | b
  · rw [plan_ite_of_none hc hk hb, if_pos]
    cases t with
    | concrete a => cases ht
    | symbolic n k owner => exact decide_eq_true rfl
  · rw [plan_ite_of_asBool? hc hk hb, ite_self]

theorem plan_ite_of_merges (h : c.Merges t e) : Plan.ite c t e = .give t := by
  have hnone : c.asBool? = none := by
    cases c with
    | concrete a => cases h.1
    | symbolic n k owner => rfl
  rw [plan_ite_of_none hc hk hnone, if_pos h.2.equal]

/-- Unless it merges the zeros, a choice leads to what its condition selects. -/
theorem leads_ite (h : ∀ u ∈ [c, t, e], V.Sorted E s u) {b : Bool}
    (hb : V.value s c = some (.bool b)) (hz : ¬c.Merges t e) :
    V.Leads s (V.value s (if b then t else e)) (Plan.ite c t e) := by
  have hsc : V.Sorted E s c := h c (by simp)
  have hst : V.Sorted E s t := h t (by simp)
  have hse : V.Sorted E s e := h e (by simp)
  rcases hx : c.asBool? with _ | x
  · rw [plan_ite_of_none hc hk hx]
    by_cases heq : t.equal e = true
    · -- the condition is open, so equal values are the same
      have hopen : c.isConcrete = false := by
        cases c with
        | symbolic n k owner => rfl
        | concrete a =>
          cases Literal.WellFormed.canonical hsc.wellFormed with
          | bool y => cases hx
          | _ => cases hc
      rw [if_pos heq]
      rcases Value.eq_or_zeros_of_equal hst.wellFormed hse.wellFormed heq with rfl | hzeros
      · rw [ite_self]
        rfl
      · exact (hz ⟨hopen, hzeros⟩).elim
    · obtain ⟨x, hx, -⟩ := hst.sort
      obtain ⟨y, hy, -⟩ := hse.sort
      have hvalues : [c, t, e].mapM (V.value s) = some [.bool b, x, y] := by
        rw [List.mapM_cons, List.mapM_cons, List.mapM_cons, hb, hx, hy]
        rfl
      rw [if_neg heq, Leads, apply, hvalues]
      cases b with
      | true => exact hx.symm
      | false => exact hy.symm
  · obtain ⟨rfl⟩ := hb.symm.trans (hsc.known hx).2
    rw [plan_ite_of_asBool? hc hk hx]
    rfl

end Plans

end Valuation

namespace World

variable {U : Type} {V : Valuation U} {E : SmtSort → U → Prop} {w : World}

/-- In a reachable world a choice between values of one kind succeeds, and has the value of the one
that its condition selects, whatever the values of the inputs; only where it merges the two zeros
of a float format is it the first of them. A condition that is a literal selects, and a node that
is both values is the choice, also of another scope. Operands have values of their kinds' sorts as
in `call_value`. -/
theorem ite_selects (h : w.Reachable) {i : Nat} {s : Scope} (hs : w.scopes[i]? = some s)
    (hI : V.interp.Respects E) :
    (∀ c t e : Value, c.kind = .bool → t.kind = e.kind → (∀ u ∈ [c, t, e], V.Sorted E s u) →
        ∃ v s' b, (outcome (Operation.primitive (.ite c t e)).run (w.workspace s)).1 =
            .ok (some v) ∧
          (w.next (.call i (.primitive (.ite c t e)))).scopes[i]? = some s' ∧
          V.value s c = some (.bool b) ∧
          (¬c.Merges t e → V.value s' v = V.value s (if b then t else e)) ∧
          (c.Merges t e → v = t)) ∧
      (∀ c t e : Value, c.kind = .bool → t.kind = e.kind →
        (∀ b, c.asBool? = some b →
          outcome (Operation.primitive (.ite c t e)).run (w.workspace s) =
            (.ok (some (if b then t else e)), w.workspace s)) ∧
        (t = e → t.isConcrete = false →
          outcome (Operation.primitive (.ite c t e)).run (w.workspace s) =
            (.ok (some t), w.workspace s))) ∧
      (∀ c : Literal, c.WellFormed → V.Sorted E s (.concrete c)) ∧
      (w.FedRun → V.Fits E w s →
        ∀ n k, .symbolic n k i ∈ w.issued → V.Sorted E s (.symbolic n k i)) := by
  refine ⟨fun c t e hc hk hsorted => ?_, fun c t e hc hk => ⟨fun b hb => ?_, fun he ht => ?_⟩,
    fun c hc => .literal hI hc, fun hfed hfit n k hn => hfed.sorted hI hs hfit hn⟩
  · have hr := h.readable (List.mem_of_getElem? hs)
    have hwithin := (Primitive.ite c t e).plan_within
    obtain ⟨b, hb⟩ := (hsorted c (by simp)).truth hc
    obtain ⟨v, s', hexec⟩ := Build.exec_own hwithin
      (Valuation.plan_ite_ne_refuse hc hk) fun u hu => (hsorted u hu).not_foreign
    have hrun : outcome ((Operation.primitive (.ite c t e)).scopeStep (w.workspace s)) s =
        (.ok (some v), s') := by
      rw [Operation.scopeStep, Operation.outcome_map, hexec]
      rfl
    refine ⟨v, s', b, ?_, ?_, hb, fun hz => ?_, fun hz => ?_⟩
    · rw [Operation.outcome_run]
      exact congrArg Prod.fst hrun
    · rw [w.next_call _ hs, hrun]
      exact List.getElem?_set_self (List.getElem?_eq_some_iff.1 hs).1
    · have hkeeps := Valuation.keeps_exec hI hr hwithin
        (Primitive.plan_typed (.ite c t e) fun u hu => (hsorted u hu).wellFormed) hsorted
      exact (hkeeps.of_ok hexec).2 _ (Valuation.leads_ite hc hk hsorted hb hz)
    · rw [Primitive.plan, Valuation.plan_ite_of_merges hc hk hz] at hexec
      cases hexec
      rfl
  · rw [Operation.outcome_run, Operation.scopeStep, Operation.outcome_map, Primitive.plan,
      Valuation.plan_ite_of_asBool? hc hk hb]
    rfl
  · rw [Operation.outcome_run, Operation.scopeStep, Operation.outcome_map, Primitive.plan,
      Valuation.plan_ite_self hc hk he ht]
    rfl

section Sample

/-- The outermost scope with one truth value as its input. -/
def withCondition : World :=
  (empty.next (.start {})).next (.call 0 (.input .universal "c" .bool))

theorem withCondition_fed : withCondition.FedRun :=
  .next (.next .empty trivial trivial) (by simp [Supplies, Operation.operands])
    (by simp [Feeds, Operation.operands])

theorem withCondition_scope : withCondition.scopes[0]? = some withCondition.scopes[0] := rfl

/-- Floats are their payloads, and the condition is `b`. -/
noncomputable def conditionIs (b : Bool) : Valuation Binary64 :=
  ⟨.payloads, fun _ => .bool b, fun _ => .bool false⟩

def condition : Value := .symbolic 2 .bool 0

theorem condition_value (b : Bool) :
    (conditionIs b).value withCondition.scopes[0] condition = some (.bool b) := by
  have hmem : 2 ∈ withCondition.scopes[0].inputIds := by decide
  rw [condition, Valuation.value, if_pos (by decide)]
  exact (withCondition_fed.reachable.readable
    (List.mem_of_getElem? withCondition_scope)).evaluate_input hmem

theorem condition_fits (b : Bool) :
    (conditionIs b).Fits IsFloat withCondition withCondition.scopes[0] := by
  have hissued : withCondition.issued = [condition] := by decide
  intro u hu _
  rw [hissued, List.mem_singleton] at hu
  subst hu
  exact ⟨trivial, _, condition_value b, .bool b⟩

def positiveZero : Binary64 := ⟨0⟩

def negativeZero : Binary64 := ⟨0x8000000000000000⟩

def someNaN : Binary64 := ⟨0x7ff8000000000000⟩

def doubleOf (x : Binary64) : Value := .concrete (.float 11 53 x)

/-- Under a false condition the choice between NaN and the negative zero is the zero. -/
theorem ite_selects_negativeZero : ∃ v s',
    (outcome (Operation.primitive (.ite condition (doubleOf someNaN) (doubleOf negativeZero))).run
      (withCondition.workspace withCondition.scopes[0])).1 = .ok (some v) ∧
    (conditionIs false).value s' v = some (.other negativeZero) := by
  obtain ⟨hite, -, hliteral, hsorted⟩ := ite_selects (V := conditionIs false)
    withCondition_fed.reachable withCondition_scope Interpretation.payloads_respects
  have hissued : condition ∈ withCondition.issued := by decide
  have hoperands : ∀ u ∈ [condition, doubleOf someNaN, doubleOf negativeZero],
      (conditionIs false).Sorted IsFloat withCondition.scopes[0] u := by
    simp only [List.forall_mem_cons]
    exact ⟨hsorted withCondition_fed (condition_fits false) 2 .bool hissued, hliteral _ trivial,
      hliteral _ trivial, List.forall_mem_nil _⟩
  obtain ⟨v, s', b, hv, -, hb, hvalue, -⟩ :=
    hite condition (doubleOf someNaN) (doubleOf negativeZero) rfl rfl hoperands
  cases hb.symm.trans (condition_value false)
  refine ⟨v, s', hv, (hvalue ?_).trans rfl⟩
  rintro ⟨-, exp, sig, x, y, hx, -, hzero, -⟩
  cases hx
  exact absurd hzero (by decide)

/-- Under a false condition the choice between the zeros is not the second one. -/
theorem ite_merges_zeros :
    withCondition.Reachable ∧ ∃ s s' v, withCondition.scopes[0]? = some s ∧
      (conditionIs false).value s condition = some (.bool false) ∧
      outcome (Operation.primitive (.ite condition (doubleOf positiveZero)
          (doubleOf negativeZero))).run (withCondition.workspace s) =
        (.ok (some v), withCondition.workspace s') ∧
      (conditionIs false).value s' v = some (.other positiveZero) ∧
      (conditionIs false).value s (doubleOf negativeZero) = some (.other negativeZero) ∧
      positiveZero ≠ negativeZero :=
  ⟨withCondition_fed.reachable, withCondition.scopes[0], withCondition.scopes[0],
    doubleOf positiveZero, withCondition_scope, condition_value false, rfl, rfl, rfl, by decide⟩

end Sample

end World

end SmtLowering
