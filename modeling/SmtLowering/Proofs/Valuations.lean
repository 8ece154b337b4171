import SmtLowering.Proofs.Soundness
import SmtLowering.Proofs.Tables

/-!
# Values with tables

A valuation gives each node of a scope a value: to an input what it says, to a constant what it
stands for, and to an assignment what its operator makes of its operands
(`Scope.Readable.evaluate_target`). Here `!=` is the negation of `==` also on floats, and a table is
read: the entries of a table are further operands of what reads it. A scope that grows keeps the
values of its nodes (`Scope.Grows.evaluate`).
-/

namespace SmtLowering

/-- What an evaluation is free in. -/
structure Valuation (U : Type) where
  interp : Interpretation U
  inputs : NodeId → Datum U
  arrays : Nat → Datum U

namespace Datum

variable {U : Type}

/-- The number that an index stands for, read by the signedness of its kind. -/
def index? (k : Kind) : Datum U → Option Int
  | .word x => some (reading k.isSigned x)
  | .int i => some i
  | _ => none

/-- The entry of an index, or the fallback outside their range. -/
def entryAt (entries : List (Datum U)) (fallback : Datum U) (i : Int) : Datum U :=
  if 0 ≤ i then entries.getD i.toNat fallback else fallback

def bool? : Datum U → Option Bool
  | .bool b => some b
  | _ => none

end Datum

/-- Comparisons of float literals are those of their payloads: none holds of NaN. -/
structure Interpretation.ComparesFloats {U : Type} (I : Interpretation U) : Prop where
  eq (exp sig : Nat) (x y : Binary64) :
    I.floatTest "fp.eq" (I.float exp sig x) (I.float exp sig y) = x.equal y
  lt (exp sig : Nat) (x y : Binary64) :
    I.floatTest "fp.lt" (I.float exp sig x) (I.float exp sig y) = (x.compare? y).any (·.isLT)
  le (exp sig : Nat) (x y : Binary64) :
    I.floatTest "fp.leq" (I.float exp sig x) (I.float exp sig y) = (x.compare? y).any (·.isLE)
  gt (exp sig : Nat) (x y : Binary64) :
    I.floatTest "fp.gt" (I.float exp sig x) (I.float exp sig y) = (x.compare? y).any (·.isGT)
  ge (exp sig : Nat) (x y : Binary64) :
    I.floatTest "fp.geq" (I.float exp sig x) (I.float exp sig y) = (x.compare? y).any (·.isGE)

section Sample

/-- Floats are their payloads, compared by value. -/
noncomputable def Interpretation.payloads : Interpretation Binary64 where
  float _ _ x := x
  floatTest name x y :=
    match name with
    | "fp.eq" => x.equal y
    | "fp.lt" => (x.compare? y).any (·.isLT)
    | "fp.leq" => (x.compare? y).any (·.isLE)
    | "fp.gt" => (x.compare? y).any (·.isGT)
    | "fp.geq" => (x.compare? y).any (·.isGE)
    | _ => false
  select x _ := .other x
  apply _ _ := .bool false
  intDivZero _ := 0
  realDivZero _ := 0

theorem Interpretation.payloads_comparesFloats : payloads.ComparesFloats := by
  constructor <;> intro exp sig x y <;> rfl

/-- Payloads are floats of any format, and nothing else. -/
def IsFloat (s : SmtSort) (_ : Binary64) : Prop := ∃ exp sig, s = .floatingPoint exp sig

theorem Interpretation.payloads_respects : payloads.Respects IsFloat := by
  refine ⟨fun exp sig _ => ⟨exp, sig, rfl⟩, fun key value u d h => ?_⟩
  obtain ⟨exp, sig, h⟩ := h
  cases h

end Sample

namespace Valuation

variable {U : Type} (V : Valuation U)

/-- The value of an operator. What reads a table is given the entries behind index and fallback. -/
noncomputable def operator (op : Op) (domain : Kind) (ds : List (Datum U)) : Option (Datum U) :=
  match op, ds with
  | .neq, [a, b] =>
    if domain.isFloat then (V.interp.floats "fp.eq" a b).bind (Datum.onBool (! ·))
    else V.interp.binary .neq domain a b
  | .table _, i :: fallback :: entries => (i.index? domain).map (Datum.entryAt entries fallback)
  | .table _, _ => none
  | .arrayRef id, _ => some (V.arrays id)
  | op, ds => V.interp.denote op domain ds

/-- Operators that no declaration stands behind have the value that is spelled, but for `!=` on
floats. -/
theorem operator_eq {op : Op} {domain : Kind} {ds : List (Datum U)} (hop : op.isNamed = false)
    (hneq : op = .neq → domain.isFloat = false) :
    V.operator op domain ds = V.interp.denote op domain ds := by
  cases op with
  | apply name | table id | arrayRef id => cases hop
  | neq =>
    rcases ds with _ | ⟨a, _ | ⟨b, _ | ⟨c, ds⟩⟩⟩
    · rfl
    · rfl
    · exact if_neg (by simp [hneq rfl])
    · rfl
  | _ => rfl

end Valuation

namespace Scope

variable {U : Type} (V : Valuation U) (s : Scope)

/-- The expression, with the entries of the table that it reads as further operands. -/
def withEntries (e : Expr) : Expr :=
  match e.op with
  | .table id => { e with args := e.args ++ ((s.table? id).map Table.entries).getD [] }
  | _ => e

/-- The value of a node. -/
noncomputable def evaluate : NodeId → Option (Datum U) :=
  carryOut V.operator (s.graph.start V.interp V.inputs)
    (s.assignments.map fun p => (p.1, s.withEntries p.2))

end Scope

/-- The value of a value of the scope; what is of another scope has none. -/
noncomputable def Valuation.value {U : Type} (V : Valuation U) (s : Scope) :
    Value → Option (Datum U)
  | .concrete c => V.interp.literal c
  | .symbolic n _ number => if number = s.number then s.evaluate V n else none

namespace Scope

variable {U : Type} {V : Valuation U} {s t : Scope}

theorem withEntries_of_ne {e : Expr} (h : ∀ id, e.op ≠ .table id) : s.withEntries e = e := by
  unfold withEntries
  split
  · next id hid => exact (h id hid).elim
  · rfl

section Equations

variable (h : s.Readable) {n : NodeId}
include h

/-- All that an assignment needs comes before it. -/
theorem Readable.withEntries_lt {e : Expr} (hn : (n, e) ∈ s.assignments) :
    ∀ a ∈ (s.withEntries e).args, a < n := by
  intro a ha
  unfold withEntries at ha
  split at ha
  · next id hid =>
    rcases List.mem_append.1 ha with ha | ha
    · exact h.arena.args_lt _ hn a ha
    · obtain ⟨r, hr, hlt⟩ := h.tabled.reads _ hn id hid
      rw [hr] at ha
      exact hlt a ha
  · exact h.arena.args_lt _ hn a ha

/-- A table stays what it is for what reads it. -/
theorem Readable.withEntries_eq (hg : s.Grows t) {e : Expr} (hn : (n, e) ∈ s.assignments) :
    t.withEntries e = s.withEntries e := by
  unfold withEntries
  split
  · next id hid =>
    obtain ⟨r, hr, -⟩ := h.tabled.reads _ hn id hid
    rw [hr, hg.table? hr]
  · rfl

theorem Readable.evaluate_target {e : Expr} (hn : (n, e) ∈ s.assignments) :
    s.evaluate V n = (s.withEntries e).valueBy V.operator (s.evaluate V) := by
  refine carryOut_of_mem ?_ ?_ (List.mem_map_of_mem hn)
  · rw [List.map_map]
    exact h.arena.targets_increasing
  · intro p hp
    obtain ⟨q, hq, rfl⟩ := List.mem_map.1 hp
    exact h.withEntries_lt hq

omit h in
theorem evaluate_of_not_target (hn : n ∉ s.targets) :
    s.evaluate V n = s.graph.start V.interp V.inputs n := by
  refine carryOut_of_not_mem ?_
  rw [List.map_map]
  exact hn

theorem Readable.evaluate_constant {c : Literal} (hn : (n, c) ∈ s.constants) :
    s.evaluate V n = V.interp.literal c := by
  rw [evaluate_of_not_target (h.arena.disjoint.2 n (List.mem_map_of_mem hn)),
    h.arena.start_constant hn]

theorem Readable.evaluate_input (hn : n ∈ s.inputIds) : s.evaluate V n = some (V.inputs n) := by
  rw [evaluate_of_not_target (h.arena.disjoint.1 n hn).2, h.arena.start_input hn]

theorem Readable.evaluate_eq_none (hn : s.nodeCount ≤ n) : s.evaluate V n = none := by
  rw [evaluate_of_not_target fun ht => Nat.not_lt.2 hn (h.arena.target_lt ht),
    h.arena.start_eq_none hn]

theorem Readable.lt_of_evaluate {d : Datum U} (hn : s.evaluate V n = some d) :
    n < s.nodeCount := by
  by_contra hlt
  rw [h.evaluate_eq_none (Nat.not_lt.1 hlt)] at hn
  cases hn

/-- A growing scope keeps the values of its nodes. -/
theorem Grows.evaluate (hg : s.Grows t) (h' : t.Readable) (hn : n < s.nodeCount) :
    t.evaluate V n = s.evaluate V n := by
  induction n using Nat.strong_induction_on with
  | _ n ih =>
    rcases h.arena.node_cases hn with hi | ⟨c, hc⟩ | ⟨e, he⟩
    · have hi' : n ∈ t.inputIds := (hg.inputs.map _).subset hi
      rw [h.evaluate_input hi, h'.evaluate_input hi']
    · rw [h.evaluate_constant hc, h'.evaluate_constant (hg.constants.subset hc)]
    · rw [h.evaluate_target he, h'.evaluate_target (hg.assignments.subset he),
        h.withEntries_eq hg he]
      refine Expr.valueBy_congr fun a ha => ?_
      have hlt := h.withEntries_lt he a ha
      exact ih a hlt (Nat.lt_trans hlt hn)

/-- Values of a growing scope keep theirs. -/
theorem Grows.value_eq (hg : s.Grows t) (h' : t.Readable) {v : Value} (hv : s.Admits v) :
    V.value t v = V.value s v := by
  cases v with
  | concrete c => rfl
  | symbolic n k number =>
    simp only [Valuation.value, hg.number]
    split_ifs with hn
    · exact hg.evaluate h h' (hv hn)
    · rfl

/-- The node that stands for a value has its value. -/
theorem Readable.evaluate_nodeOf {v : Value} (hv : s.NodeOf v n) :
    s.evaluate V n = V.value s v := by
  cases v with
  | concrete c => exact h.evaluate_constant hv
  | symbolic m k number =>
    obtain ⟨rfl, -, rfl⟩ := hv
    simp only [Valuation.value, if_true]

theorem Readable.mapM_nodesOf {vs : List Value} {ns : List NodeId}
    (hn : List.Forall₂ s.NodeOf vs ns) : ns.mapM (s.evaluate V) = vs.mapM (V.value s) := by
  induction hn with
  | nil => rfl
  | cons hv _ ih => rw [List.mapM_cons, List.mapM_cons, h.evaluate_nodeOf hv, ih]

end Equations

end Scope

end SmtLowering
