import Mathlib.Data.List.Induction
import Mathlib.Data.Nat.Init
import SmtLowering.Proofs.Recorded
import SmtLowering.Proofs.Validation
import SmtLowering.Proofs.Values

/-!
# Verdicts

Validation passes a trace that meets every check and otherwise ends with the error of the first
check that is not met, whichever others fail too (`Trace.validate_eq_error_iff`). What passes has
universal inputs and one output, so that nothing is left to refuse (`Trace.validate_verdict`).
-/

namespace SmtLowering

section FreeNames

/-- The names that the expressions apply, one for each application. -/
def appliedNames (exprs : List Expr) : List String := exprs.filterMap Expr.appliedName?

theorem appliedNames_concat (es : List Expr) (e : Expr) :
    appliedNames (es ++ [e]) = appliedNames es ++ e.appliedName?.toList := by
  rw [appliedNames, List.filterMap_append]
  refine congrArg _ ?_
  cases h : e.appliedName? with
  | none => exact List.filterMap_cons_none h
  | some f => exact List.filterMap_cons_some h

theorem freeNames_concat (es : List Expr) (e : Expr) :
    freeNames (es ++ [e]) =
      match e.appliedName? with
      | some f => if (freeNames es).contains f then freeNames es else freeNames es ++ [f]
      | none => freeNames es := by
  unfold freeNames
  rw [List.foldl_append]
  rfl

theorem mem_appliedNames {f : String} {es : List Expr} :
    f ∈ appliedNames es ↔ f ∈ freeNames es := by
  rw [mem_freeNames, appliedNames, List.mem_filterMap]

/-- A name stands before those that are applied for the first time after it, and only once. -/
theorem freeNames_inOrder (exprs : List Expr) : (freeNames exprs).Pairwise fun f g =>
    (appliedNames exprs).idxOf f < (appliedNames exprs).idxOf g := by
  induction exprs using List.reverseRecOn with
  | nil => exact .nil
  | append_singleton es e ih =>
    rw [appliedNames_concat, freeNames_concat]
    have hold : (freeNames es).Pairwise fun f g =>
        (appliedNames es ++ e.appliedName?.toList).idxOf f <
          (appliedNames es ++ e.appliedName?.toList).idxOf g := by
      refine ih.imp_of_mem fun hf hg hlt => ?_
      rwa [List.idxOf_append_of_mem (mem_appliedNames.2 hf),
        List.idxOf_append_of_mem (mem_appliedNames.2 hg)]
    cases he : e.appliedName? with
    | none => rwa [he] at hold
    | some f =>
      rw [he] at hold
      dsimp only
      split_ifs with hmem
      · exact hold
      · rw [List.contains_iff_mem] at hmem
        refine List.pairwise_append.2 ⟨hold, List.pairwise_singleton _ _, fun g hg f' hf' => ?_⟩
        rw [List.mem_singleton.1 hf', List.idxOf_append_of_mem (mem_appliedNames.2 hg),
          List.idxOf_append_of_notMem fun h => hmem (mem_appliedNames.1 h)]
        exact Nat.lt_add_right _ (List.idxOf_lt_length_of_mem (mem_appliedNames.2 hg))

end FreeNames

/-- No expression is assigned to a truth value. -/
theorem Scope.Arena.two_le_target {s : Scope} (h : s.Arena) {n : NodeId} (hn : n ∈ s.targets) :
    2 ≤ n := by
  have hconstant {m : NodeId} {c : Literal} (hm : (m, c) ∈ s.constants) : n ≠ m := by
    rintro rfl
    exact h.disjoint.2 n (List.mem_map_of_mem hm) hn
  exact (Nat.two_le_iff n).2 ⟨hconstant h.falsity, hconstant h.truth⟩

namespace Trace

variable {context : String} {t : Trace} {expected : Kind}

/-- The trace is one that can be lowered to a result of the kind. -/
structure Supported (t : Trace) (expected : Kind) : Prop where
  observables : t.observables = []
  codeSegments : t.codeSegments = []
  tables : t.tables = []
  arrays : t.arrays = []
  constraints : t.constraints = []
  assertions : t.assertions = []
  inputs : ∀ i ∈ t.inputs, i.role ≠ .existential ∧ i.role ≠ .tracker
  output : ∃ out, t.outputs = [out] ∧ t.kindOf? out = some expected

theorem supported_iff : t.Supported expected ↔ ∀ check : Check, check.Met t expected := by
  constructor
  · rintro ⟨_, _, _, _, _, _, hinputs, _⟩ check
    cases check with
    | existentials => exact fun i hi => (hinputs i hi).1
    | trackers => exact fun i hi => (hinputs i hi).2
    | _ => assumption
  · exact fun h => ⟨h .observables, h .codeSegments, h .tables, h .arrays, h .constraints,
      h .assertions, fun i hi => ⟨h .existentials i hi, h .trackers i hi⟩, h .output⟩

/-- The error is that of the first check that is not met. -/
theorem validate_eq_error_iff {e : LowerError} : t.validate context expected = .error e ↔
    ∃ before check after, Check.all = before ++ check :: after ∧
      (∀ c ∈ before, c.Met t expected) ∧ ¬ check.Met t expected ∧
        check.run context t expected = some e := by
  have hfirst : t.validate context expected = .error e ↔
      Check.all.findSome? (Check.run context t expected) = some e := by
    rw [validate_eq]
    rcases Check.all.findSome? (Check.run context t expected) with _ | e'
    · exact ⟨nofun, nofun⟩
    · exact ⟨fun h => congrArg some (Except.error.inj h),
        fun h => congrArg Except.error (Option.some.inj h)⟩
  rw [hfirst, List.findSome?_eq_some_iff]
  constructor
  · rintro ⟨before, check, after, hall, hrun, hbefore⟩
    exact ⟨before, check, after, hall, fun c hc => Check.run_eq_none_iff.1 (hbefore c hc),
      fun hmet => Option.some_ne_none e (hrun.symm.trans (Check.run_eq_none_iff.2 hmet)), hrun⟩
  · rintro ⟨before, check, after, hall, hbefore, -, hrun⟩
    exact ⟨before, check, after, hall, hrun, fun c hc => Check.run_eq_none_iff.2 (hbefore c hc)⟩

/-- No check complains of an input that survived the checks. -/
theorem run_ne_survivor (check : Check) (role : InputRole) (name : String) :
    check.run context t expected ≠ some (.impossible context (.survivor role name)) := by
  intro h
  have hrefuse {α : Type} {cause : List α → Unsupported} {found : List α} :
      Check.refuse context cause found ≠ some (.impossible context (.survivor role name)) := by
    unfold Check.refuse
    split_ifs <;> simp
  cases check with
  | output =>
    obtain ⟨cause, hcause, heq⟩ := Option.map_eq_some_iff.1 h
    obtain ⟨-, rfl⟩ := LowerError.impossible.inj heq
    unfold Check.outputError? at hcause
    repeat' split at hcause
    all_goals cases hcause
  | _ => exact hrefuse h

/-- What validation takes from a trace that passed. -/
structure Yields (t : Trace) (expected : Kind) (v : ValidTrace) : Prop where
  level : v.level = t.level
  rounding : v.rounding = t.config.rounding
  params : v.params = t.inputs.map fun i => (i.node, i.kind)
  constants : v.constants = t.constants.filter fun p => p.1 ≠ NodeId.falsity ∧ p.1 ≠ NodeId.truth
  assignments : v.assignments = t.assignments
  output : t.outputs = [v.output]
  outputKind : v.outputKind = expected
  freeNames : ∀ f, f ∈ v.freeNames ↔ f ∈ appliedNames (t.assignments.map Prod.snd)
  inOrder : v.freeNames.Pairwise fun f g =>
    (appliedNames (t.assignments.map Prod.snd)).idxOf f <
      (appliedNames (t.assignments.map Prod.snd)).idxOf g

theorem yields_of_validate {v : ValidTrace} (h : t.validate context expected = .ok v) :
    t.Yields expected v := by
  obtain ⟨hmet, rfl⟩ := validate_eq_ok_iff.1 h
  obtain ⟨out, hout, -⟩ := (supported_iff.2 hmet).output
  refine ⟨rfl, rfl, rfl, ?_, rfl, ?_, rfl, fun _ => mem_appliedNames.symm, freeNames_inOrder _⟩
  · refine List.filter_congr fun p _ => ?_
    simp only [NodeId.isTruthValue, Bool.not_or, ne_eq, Bool.decide_and, decide_not, beq_eq_decide]
  · rw [valid, hout]
    rfl

/-- Validation passes exactly the traces that can be lowered and names the first fault of the
others. No input is left for it to refuse after the checks, and no output to miss. -/
theorem validate_verdict (context : String) (t : Trace) (expected : Kind) :
    ((∃ v, t.validate context expected = .ok v) ↔ t.Supported expected) ∧
      (∀ e, t.validate context expected = .error e ↔
        ∃ before check after, Check.all = before ++ check :: after ∧
          (∀ c ∈ before, c.Met t expected) ∧ ¬ check.Met t expected ∧
            check.run context t expected = some e) ∧
      (∀ role name,
        t.validate context expected ≠ .error (.impossible context (.survivor role name))) ∧
      (∀ v, t.validate context expected = .ok v → t.Yields expected v) ∧
      ∀ (w : World) (s : Scope), w.Reachable → s ∈ w.scopes → s.finish = t →
        ∀ p ∈ t.assignments, p.1 ≠ NodeId.falsity ∧ p.1 ≠ NodeId.truth := by
  refine ⟨⟨fun ⟨v, hv⟩ => supported_iff.2 (validate_eq_ok_iff.1 hv).1,
      fun h => ⟨_, validate_eq_ok_iff.2 ⟨supported_iff.1 h, rfl⟩⟩⟩,
    fun e => validate_eq_error_iff, fun role name h => ?_, fun v => yields_of_validate, ?_⟩
  · obtain ⟨-, check, -, -, -, -, hrun⟩ := validate_eq_error_iff.1 h
    exact run_ne_survivor check role name hrun
  · rintro w s hw hs rfl p hp
    have htarget := ((World.reachable_arena hw).1 s hs).two_le_target (List.mem_map_of_mem hp)
    exact (Nat.two_le_iff p.1).1 htarget

end Trace

end SmtLowering
