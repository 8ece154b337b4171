import Mathlib.Logic.Function.Basic
import SmtLowering.Proofs.Keeps
import SmtLowering.Proofs.Semantics

/-!
# Values of nodes

A graph gives each of its nodes a value, from a valuation of its inputs: the assignments are carried
out in the order they were recorded. In an arena an assignment's value is that of its expression
over the finished graph (`Scope.Arena.value_target`), and a scope that grows keeps the values of its
nodes (`Scope.Grows.value`).
-/

namespace SmtLowering

/-- What operators do over a domain. -/
abbrev Operators (U : Type) := Op → Kind → List (Datum U) → Option (Datum U)

section Carrying

variable {U : Type} (J : Operators U)

/-- The value of an expression whose operands have values. -/
def Expr.valueBy (env : NodeId → Option (Datum U)) (e : Expr) : Option (Datum U) :=
  (e.args.mapM env).bind (J e.op e.domain)

/-- The values of nodes once the assignments have been carried out, one after the other. -/
def carryOut (env : NodeId → Option (Datum U)) (as : List (NodeId × Expr)) :
    NodeId → Option (Datum U) :=
  as.foldl (fun env p => Function.update env p.1 (p.2.valueBy J env)) env

variable {J}

theorem mapM_congr {α β : Type} {f g : α → Option β} {xs : List α} (h : ∀ x ∈ xs, f x = g x) :
    xs.mapM f = xs.mapM g := by
  induction xs with
  | nil => rfl
  | cons x xs ih =>
    rw [List.mapM_cons, List.mapM_cons, h x List.mem_cons_self,
      ih fun y hy => h y (List.mem_cons_of_mem _ hy)]

theorem Expr.valueBy_congr {env env' : NodeId → Option (Datum U)} {e : Expr}
    (h : ∀ a ∈ e.args, env a = env' a) : e.valueBy J env = e.valueBy J env' := by
  rw [valueBy, valueBy, mapM_congr h]

theorem carryOut_of_not_mem {as : List (NodeId × Expr)} {env : NodeId → Option (Datum U)}
    {n : NodeId} (h : n ∉ as.map (·.1)) : carryOut J env as n = env n := by
  induction as generalizing env with
  | nil => rfl
  | cons p as ih =>
    simp only [List.map_cons, List.mem_cons, not_or] at h
    rw [carryOut, List.foldl_cons, ← carryOut, ih h.2, Function.update_of_ne h.1]

/-- Where targets ascend and arguments come before them, an assignment has the value of its
expression once all are carried out. -/
theorem carryOut_of_mem {as : List (NodeId × Expr)} {env : NodeId → Option (Datum U)}
    (hinc : (as.map (·.1)).Pairwise (· < ·)) (hlt : ∀ p ∈ as, ∀ a ∈ p.2.args, a < p.1)
    {n : NodeId} {e : Expr} (hm : (n, e) ∈ as) :
    carryOut J env as n = e.valueBy J (carryOut J env as) := by
  induction as generalizing env with
  | nil => cases hm
  | cons p as ih =>
    rw [List.map_cons, List.pairwise_cons] at hinc
    have step (m : NodeId) : carryOut J env (p :: as) m =
        carryOut J (Function.update env p.1 (p.2.valueBy J env)) as m := rfl
    have below {m : NodeId} (hmp : m ≤ p.1) : m ∉ as.map (·.1) := fun h =>
      Nat.not_lt.2 hmp (hinc.1 m h)
    rcases List.mem_cons.1 hm with rfl | hm
    · rw [step, carryOut_of_not_mem (below (Nat.le_refl n)), Function.update_self]
      refine Expr.valueBy_congr fun a ha => ?_
      have han := hlt (n, e) List.mem_cons_self a ha
      rw [step, carryOut_of_not_mem (below (Nat.le_of_lt han)),
        Function.update_of_ne (Nat.ne_of_lt han)]
    · rw [step, ih hinc.2 (fun q hq => hlt q (List.mem_cons_of_mem _ hq)) hm]
      exact Expr.valueBy_congr fun a _ => (step a).symm

end Carrying

structure Graph where
  inputs : List NodeId
  constants : List (NodeId × Literal)
  assignments : List (NodeId × Expr)

namespace Graph

variable {U : Type} (I : Interpretation U) (ρ : NodeId → Datum U) (g : Graph)

/-- The value of an expression whose operands have values. -/
noncomputable def exprValue (env : NodeId → Option (Datum U)) (e : Expr) : Option (Datum U) :=
  (e.args.mapM env).bind (I.denote e.op e.domain)

/-- Inputs and constants have their values from the start. -/
def start (n : NodeId) : Option (Datum U) :=
  match g.constants.lookup n with
  | some c => I.literal c
  | none => if n ∈ g.inputs then some (ρ n) else none

noncomputable def assign (env : NodeId → Option (Datum U)) (as : List (NodeId × Expr)) :
    NodeId → Option (Datum U) :=
  as.foldl (fun env p => Function.update env p.1 (exprValue I env p.2)) env

/-- The value of a node. -/
noncomputable def value : NodeId → Option (Datum U) := assign I (g.start I ρ) g.assignments

variable {I}

theorem exprValue_congr {env env' : NodeId → Option (Datum U)} {e : Expr}
    (h : ∀ a ∈ e.args, env a = env' a) : exprValue I env e = exprValue I env' e :=
  Expr.valueBy_congr h

theorem assign_of_not_mem {as : List (NodeId × Expr)} {env : NodeId → Option (Datum U)} {n : NodeId}
    (h : n ∉ as.map (·.1)) : assign I env as n = env n :=
  carryOut_of_not_mem h

theorem lookup_of_mem {α β : Type} [DecidableEq α] {xs : List (α × β)} {a : α} {b : β}
    (h : (xs.map (·.1)).Nodup) (hm : (a, b) ∈ xs) : xs.lookup a = some b := by
  induction xs with
  | nil => cases hm
  | cons x xs ih =>
    rw [List.map_cons, List.nodup_cons] at h
    rcases List.mem_cons.1 hm with rfl | hm
    · exact List.lookup_cons_self
    · have hne : a ≠ x.1 := fun he => h.1 (he ▸ List.mem_map_of_mem hm)
      rw [List.lookup_cons, beq_eq_false_iff_ne.2 hne]
      exact ih h.2 hm

end Graph

namespace Scope

variable {U : Type} (I : Interpretation U) (ρ : NodeId → Datum U)

def graph (s : Scope) : Graph := ⟨s.inputIds, s.constants, s.assignments⟩

/-- The value of a value of the scope; what is of another scope has none. -/
noncomputable def valueOf (s : Scope) : Value → Option (Datum U)
  | .concrete c => I.literal c
  | .symbolic n _ number => if number = s.number then s.graph.value I ρ n else none

variable {I ρ} {s t : Scope}

/-- A node is of one sort only. -/
theorem Arena.disjoint (h : s.Arena) :
    (∀ n ∈ s.inputIds, n ∉ s.constantIds ∧ n ∉ s.targets) ∧ ∀ n ∈ s.constantIds, n ∉ s.targets := by
  have hn : (s.inputIds ++ s.constantIds ++ s.targets).Nodup :=
    h.partition.nodup_iff.2 List.nodup_range
  rw [List.nodup_append, List.nodup_append] at hn
  obtain ⟨⟨-, -, hic⟩, -, ht⟩ := hn
  refine ⟨fun n hi => ⟨fun hc => hic n hi n hc rfl, fun h' => ?_⟩, fun n hc h' => ?_⟩
  · exact ht n (List.mem_append_left _ hi) n h' rfl
  · exact ht n (List.mem_append_right _ hc) n h' rfl

theorem lookup_eq_none {α β : Type} [DecidableEq α] {xs : List (α × β)} {a : α}
    (h : a ∉ xs.map (·.1)) : xs.lookup a = none := by
  rw [List.lookup_eq_none_iff]
  intro p hp
  rw [bne_iff_ne]
  rintro rfl
  exact h (List.mem_map_of_mem hp)

theorem value_of_not_target {n : NodeId} (hn : n ∉ s.targets) :
    s.graph.value I ρ n = s.graph.start I ρ n := Graph.assign_of_not_mem hn

section Equations

variable (h : s.Arena) {n : NodeId}
include h

theorem Arena.start_constant {c : Literal} (hn : (n, c) ∈ s.constants) :
    s.graph.start I ρ n = I.literal c := by
  have hnodup : (s.constants.map (·.1)).Nodup := h.constants_increasing.imp Nat.ne_of_lt
  rw [Graph.start]
  simp only [graph, Graph.lookup_of_mem hnodup hn]

theorem Arena.start_input (hn : n ∈ s.inputIds) : s.graph.start I ρ n = some (ρ n) := by
  rw [Graph.start]
  simp only [graph, lookup_eq_none (h.disjoint.1 n hn).1]
  exact if_pos hn

/-- What is no node has no value from the start. -/
theorem Arena.start_eq_none (hn : s.nodeCount ≤ n) : s.graph.start I ρ n = none := by
  have hno := mt (h.mem_iff n).1 (Nat.not_lt.2 hn)
  simp only [not_or] at hno
  rw [Graph.start]
  simp only [graph, lookup_eq_none hno.2.1]
  exact if_neg hno.1

theorem Arena.value_constant {c : Literal} (hn : (n, c) ∈ s.constants) :
    s.graph.value I ρ n = I.literal c := by
  rw [value_of_not_target (h.disjoint.2 n (List.mem_map_of_mem hn)), h.start_constant hn]

theorem Arena.value_input (hn : n ∈ s.inputIds) : s.graph.value I ρ n = some (ρ n) := by
  rw [value_of_not_target (h.disjoint.1 n hn).2, h.start_input hn]

theorem Arena.valueOf_input (hn : n ∈ s.inputIds) {k : Kind} {number : Nat}
    (hnumber : number = s.number) : s.valueOf I ρ (.symbolic n k number) = some (ρ n) :=
  (if_pos hnumber).trans (h.value_input hn)

theorem Arena.value_target {e : Expr} (hn : (n, e) ∈ s.assignments) :
    s.graph.value I ρ n = Graph.exprValue I (s.graph.value I ρ) e :=
  carryOut_of_mem h.targets_increasing h.args_lt hn

/-- Each node is an input, a constant or an assignment. -/
theorem Arena.node_cases (hn : n < s.nodeCount) :
    n ∈ s.inputIds ∨ (∃ c, (n, c) ∈ s.constants) ∨ ∃ e, (n, e) ∈ s.assignments := by
  rcases (h.mem_iff n).2 hn with hi | hc | ht
  · exact .inl hi
  · obtain ⟨⟨m, c⟩, hm, rfl⟩ := List.mem_map.1 hc
    exact .inr (.inl ⟨c, hm⟩)
  · obtain ⟨⟨m, e⟩, hm, rfl⟩ := List.mem_map.1 ht
    exact .inr (.inr ⟨e, hm⟩)

/-- A growing scope keeps the values of its nodes. -/
theorem Grows.value (hg : s.Grows t) (h' : t.Arena) (hn : n < s.nodeCount) :
    t.graph.value I ρ n = s.graph.value I ρ n := by
  induction n using Nat.strong_induction_on with
  | _ n ih =>
    rcases h.node_cases hn with hi | ⟨c, hc⟩ | ⟨e, he⟩
    · have hi' : n ∈ t.inputIds := (hg.inputs.map _).subset hi
      rw [h.value_input hi, h'.value_input hi']
    · rw [h.value_constant hc, h'.value_constant (hg.constants.subset hc)]
    · rw [h.value_target he, h'.value_target (hg.assignments.subset he)]
      refine Graph.exprValue_congr fun a ha => ?_
      have hlt := h.args_lt _ he a ha
      exact ih a hlt (Nat.lt_trans hlt hn)

/-- What is no node has no value. -/
theorem Arena.value_eq_none (hn : s.nodeCount ≤ n) : s.graph.value I ρ n = none := by
  rw [value_of_not_target fun ht => Nat.not_lt.2 hn (h.target_lt ht), h.start_eq_none hn]

theorem Grows.valueOf (hg : s.Grows t) (h' : t.Arena) {v : Value} {d : Datum U}
    (hv : s.valueOf I ρ v = some d) : t.valueOf I ρ v = some d := by
  cases v with
  | concrete c => exact hv
  | symbolic n k number =>
    simp only [Scope.valueOf, hg.number] at hv ⊢
    split_ifs at hv ⊢
    have hn : n < s.nodeCount := by
      by_contra hno
      rw [h.value_eq_none (Nat.not_lt.1 hno)] at hv
      cases hv
    rw [hg.value h h' hn, hv]

/-- The node that stands for a value has its value. -/
theorem Arena.value_nodeOf {v : Value} (hv : s.NodeOf v n) :
    s.graph.value I ρ n = s.valueOf I ρ v := by
  cases v with
  | concrete c => exact h.value_constant hv
  | symbolic m k number =>
    obtain ⟨rfl, -, rfl⟩ := hv
    simp only [Scope.valueOf, if_true]

end Equations

end Scope

end SmtLowering
