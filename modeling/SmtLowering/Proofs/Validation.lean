import Mathlib.Data.List.Basic
import Mathlib.Tactic.SplitIfs
import SmtLowering.Lowering.Emission

/-!
# What validation leaves

A trace that passes is the scope's own, less the artifacts that it does not have
(`Trace.validate_ok`). Its free names are the functions that its expressions apply
(`mem_freeNames`), which a declaration lists less its own name (`Declaration.mem_applied`).
-/

namespace SmtLowering

section FreeNames

variable {f : String} {exprs : List Expr}

theorem mem_freeNames_fold {names : List String} :
    f ∈ exprs.foldl
      (fun names e =>
        match e.appliedName? with
        | some name => if names.contains name then names else names ++ [name]
        | none => names)
      names ↔ f ∈ names ∨ ∃ e ∈ exprs, e.appliedName? = some f := by
  induction exprs generalizing names with
  | nil => simp
  | cons e es ih =>
    rw [List.foldl_cons, ih, List.exists_mem_cons_iff, ← or_assoc]
    refine or_congr_left ?_
    split
    · next name hname =>
      rw [hname, Option.some.injEq]
      split_ifs with hc
      · have hmem := List.contains_iff_mem.1 hc
        exact ⟨.inl, Or.rec id fun h => h ▸ hmem⟩
      · rw [List.mem_append, List.mem_singleton, eq_comm (a := f)]
    · next hname => simp [hname]

theorem mem_freeNames : f ∈ freeNames exprs ↔ ∃ e ∈ exprs, e.appliedName? = some f :=
  mem_freeNames_fold.trans (by simp)

end FreeNames

namespace Check

/-- What a check asks of a trace. -/
def Met (t : Trace) (expected : Kind) : Check → Prop
  | .observables => t.observables = []
  | .codeSegments => t.codeSegments = []
  | .tables => t.tables = []
  | .arrays => t.arrays = []
  | .constraints => t.constraints = []
  | .assertions => t.assertions = []
  | .existentials => ∀ i ∈ t.inputs, i.role ≠ .existential
  | .trackers => ∀ i ∈ t.inputs, i.role ≠ .tracker
  | .output => ∃ out, t.outputs = [out] ∧ t.kindOf? out = some expected

variable {context : String} {t : Trace} {expected : Kind}

theorem refuse_eq_none_iff {α : Type} {cause : List α → Unsupported} {found : List α} :
    refuse context cause found = none ↔ found = [] := by
  unfold refuse
  rw [ite_eq_left_iff, List.isEmpty_iff]
  exact ⟨fun h => of_not_not fun hne => Option.some_ne_none _ (h hne), fun h hne => (hne h).elim⟩

theorem outputError?_eq_none_iff : outputError? t expected = none ↔
    ∃ out, t.outputs = [out] ∧ t.kindOf? out = some expected := by
  unfold outputError?
  split
  · next out hout =>
    rw [hout]
    split
    · next k hk => simp [hk]
    · next hk => simp [hk]
  · next hmany => exact ⟨nofun, fun ⟨out, hout, _⟩ => (hmany out hout).elim⟩

theorem run_eq_none_iff {check : Check} :
    run context t expected check = none ↔ check.Met t expected := by
  have hroles (role : InputRole) : inputsOf t role = [] ↔ ∀ i ∈ t.inputs, i.role ≠ role := by
    simp [inputsOf, List.filter_eq_nil_iff]
  cases check with
  | existentials => exact refuse_eq_none_iff.trans (hroles _)
  | trackers => exact refuse_eq_none_iff.trans (hroles _)
  | output => exact Option.map_eq_none_iff.trans outputError?_eq_none_iff
  | _ => exact refuse_eq_none_iff

theorem mem_all (check : Check) : check ∈ all := by
  cases check <;> decide

/-- No check fails exactly if every check is met. -/
theorem findSome?_run_eq_none_iff :
    all.findSome? (run context t expected) = none ↔ ∀ check : Check, check.Met t expected := by
  rw [List.findSome?_eq_none_iff]
  exact ⟨fun h check => run_eq_none_iff.1 (h check check.mem_all),
    fun h check _ => run_eq_none_iff.2 (h check)⟩

/-- What two checks let pass is universal. -/
theorem universal_of_met (h : ∀ check : Check, check.Met t expected) :
    ∀ i ∈ t.inputs, i.role = .universal := by
  intro i hi
  have hexistential : i.role ≠ .existential := h .existentials i hi
  have htracker : i.role ≠ .tracker := h .trackers i hi
  cases hrole : i.role with
  | universal => rfl
  | existential => exact (hexistential hrole).elim
  | tracker => exact (htracker hrole).elim

end Check

namespace Trace

variable {context : String} {t : Trace} {expected : Kind}

theorem mapM_parameter {inputs : List Input} (h : ∀ i ∈ inputs, i.role = .universal) :
    inputs.mapM (Input.parameter context) = .ok (inputs.map fun i => (i.node, i.kind)) := by
  induction inputs with
  | nil => rfl
  | cons i is ih =>
    obtain ⟨hi, his⟩ := List.forall_mem_cons.1 h
    rw [List.mapM_cons, ih his, Input.parameter, hi]
    rfl

/-- Once the checks are met, no input is left that is not a parameter. -/
theorem validate_eq : t.validate context expected =
    match Check.all.findSome? (Check.run context t expected) with
    | some e => .error e
    | none => .ok (t.valid expected (t.outputs.headD NodeId.falsity)) := by
  unfold validate
  rcases h : Check.all.findSome? (Check.run context t expected) with _ | e
  · rw [mapM_parameter (Check.universal_of_met (Check.findSome?_run_eq_none_iff.1 h))]
    rfl
  · rfl

/-- A trace passes if it meets every check, and then only the output is chosen. -/
theorem validate_eq_ok_iff {r : ValidTrace} : t.validate context expected = .ok r ↔
    (∀ check : Check, check.Met t expected) ∧
      r = t.valid expected (t.outputs.headD NodeId.falsity) := by
  rw [validate_eq, ← @Check.findSome?_run_eq_none_iff context]
  rcases Check.all.findSome? (Check.run context t expected) with _ | e
  · exact ⟨fun h => ⟨rfl, (Except.ok.inj h).symm⟩, fun h => congrArg _ h.2.symm⟩
  · exact ⟨nofun, nofun⟩

/-- A trace that passes has no tables and no arrays, and one output, of the expected kind. -/
theorem validate_ok {r : ValidTrace} (h : t.validate context expected = .ok r) :
    t.tables = [] ∧ t.arrays = [] ∧
      ∃ out, t.kindOf? out = some expected ∧ r = t.valid expected out := by
  obtain ⟨hmet, rfl⟩ := validate_eq_ok_iff.1 h
  obtain ⟨out, hout, hkind⟩ : Check.output.Met t expected := hmet .output
  refine ⟨hmet .tables, hmet .arrays, out, hkind, ?_⟩
  rw [hout]
  rfl

end Trace

namespace ValidTrace

/-- An expression of the trace applies the function. -/
def Applies (t : ValidTrace) (f : String) : Prop := ∃ p ∈ t.assignments, p.2.appliedName? = some f

/-- The free names are the functions that the expressions apply. -/
def NamesFree (t : ValidTrace) : Prop := ∀ f, f ∈ t.freeNames ↔ t.Applies f

theorem assignments_of_validate {context : String} {t : Trace} {expected : Kind} {r : ValidTrace}
    (h : t.validate context expected = .ok r) : r.assignments = t.assignments := by
  obtain ⟨-, -, out, -, rfl⟩ := Trace.validate_ok h
  rfl

theorem namesFree_of_validate {context : String} {t : Trace} {expected : Kind} {r : ValidTrace}
    (h : t.validate context expected = .ok r) : r.NamesFree := by
  obtain ⟨-, -, out, -, rfl⟩ := Trace.validate_ok h
  intro f
  show f ∈ SmtLowering.freeNames (t.assignments.map Prod.snd) ↔ _
  rw [mem_freeNames]
  simp only [List.mem_map]
  constructor
  · rintro ⟨e, ⟨p, hp, rfl⟩, he⟩
    exact ⟨p, hp, he⟩
  · rintro ⟨p, hp, he⟩
    exact ⟨p.2, ⟨p, hp, rfl⟩, he⟩

end ValidTrace

section Declarations

theorem bind_eq_ok {ε α β : Type} {x : Except ε α} {f : α → Except ε β} {b : β}
    (h : x >>= f = .ok b) : ∃ a, x = .ok a ∧ f a = .ok b := by
  cases x with
  | error e => cases h
  | ok a => exact ⟨a, rfl, h⟩

namespace Declaration

/-- The functions that the body applies. -/
def applied (d : Declaration) : List String :=
  if d.recursive then d.name :: d.definition.freeNames else d.definition.freeNames

/-- The kinds of the parameters and of the result. -/
def signature (d : Declaration) : Signature :=
  ⟨d.definition.params.map Prod.snd, d.result⟩

/-- The declaration is what a valid trace spells. -/
def Spells (d : Declaration) (t : ValidTrace) : Prop := t.NamesFree ∧ t.declaration d.name = .ok d

theorem exists_ofDefinition {t : ValidTrace} {name : String} {d : Declaration}
    (h : t.declaration name = .ok d) :
    ∃ e, Definition.ofTrace t = .ok e ∧ e.freeNames = t.freeNames ∧
      d = .ofDefinition name t.outputKind e := by
  unfold ValidTrace.declaration at h
  rcases he : Definition.ofTrace t with v | e
  · rw [he] at h
    cases h
  · rw [he] at h
    refine ⟨e, rfl, ?_, (Except.ok.inj h).symm⟩
    unfold Definition.ofTrace at he
    obtain ⟨cs, -, he⟩ := bind_eq_ok he
    cases he
    rfl

theorem mem_applied {d : Declaration} {t : ValidTrace} (h : d.Spells t) {f : String} :
    f ∈ d.applied ↔ t.Applies f := by
  obtain ⟨hfree, hd⟩ := h
  obtain ⟨e, -, he, hd⟩ := exists_ofDefinition hd
  rw [← hfree, ← he, applied, hd]
  simp only [ofDefinition, List.contains_iff_mem]
  by_cases hname : d.name ∈ e.freeNames
  · rw [if_pos hname, List.mem_cons, List.mem_filter]
    constructor
    · rintro (rfl | h)
      · exact hname
      · exact h.1
    · intro h
      by_cases hf : f = d.name
      · exact .inl hf
      · exact .inr ⟨h, by simpa using hf⟩
  · rw [if_neg hname, List.mem_filter]
    refine and_iff_left_of_imp fun h => ?_
    simp only [ne_eq, decide_not, Bool.not_eq_eq_eq_not, Bool.not_true, decide_eq_false_iff_not]
    rintro rfl
    exact hname h

/-- A definition is recursive exactly if its body applies its name, which is no free name of it. -/
theorem recursive_iff {d : Declaration} {t : ValidTrace} {name : String} (hfree : t.NamesFree)
    (h : t.declaration name = .ok d) :
    (d.recursive = true ↔ t.Applies name) ∧ name ∉ d.definition.freeNames := by
  obtain ⟨e, -, he, rfl⟩ := exists_ofDefinition h
  refine ⟨?_, by simp [ofDefinition]⟩
  rw [← hfree, ← he]
  exact List.contains_iff_mem

theorem recursive_of_mem_applied {d : Declaration} {t : ValidTrace} (h : d.Spells t)
    (hf : d.name ∈ d.applied) : d.recursive = true :=
  (recursive_iff h.1 h.2).1.2 ((mem_applied h).1 hf)

end Declaration

/-- What is emitted for a name has the kinds of the trace's parameters and output. -/
theorem signature_of_declaration {t : ValidTrace} {name : String} {d : Declaration}
    (h : t.declaration name = .ok d) :
    d.name = name ∧ d.signature = ⟨t.params.map Prod.snd, t.outputKind⟩ := by
  obtain ⟨e, he, -, rfl⟩ := Declaration.exists_ofDefinition h
  have hparams : e.params.map Prod.snd = t.params.map Prod.snd := by
    unfold Definition.ofTrace at he
    obtain ⟨cs, -, he⟩ := bind_eq_ok he
    cases he
    simp
  exact ⟨rfl, by simp only [Declaration.signature, Declaration.ofDefinition, hparams]⟩

end Declarations

end SmtLowering
