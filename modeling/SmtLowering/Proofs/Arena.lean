import Mathlib.Data.List.Perm.Basic
import Mathlib.Data.List.Basic
import SmtLowering.Proofs.World

/-!
# The arena of a scope

`Scope.Arena` is the invariant of the nodes of a scope: they are numbered in the order they were
made, each is an input, a constant or the target of an assignment, and the caches know exactly the
constants and the expressions. `Scope.Grows` says that nothing a scope holds is changed or removed.
Both are kept by adding a constant, an expression over nodes of the scope or an input, hence by an
operation (`Discipline.Lawful.scopeStep_keeps`) and by an event (`World.Conforms.next`).

The operands need not come from the scope at hand. One that does names a node of it
(`Scope.Admits`); one that does not is refused before it becomes an argument.
-/

namespace SmtLowering

namespace Scope

section Growth

/-- Nothing that `s` holds is changed or missing in `t`; what `t` has more stands behind it. -/
structure Grows (s t : Scope) : Prop where
  number : t.number = s.number
  level : t.level = s.level
  config : t.config = s.config
  branches : t.branches = s.branches
  nodeKinds : s.nodeKinds <+: t.nodeKinds
  exprIds : ∀ e n, s.exprIds.lookup e = some n → t.exprIds.lookup e = some n
  constIds : ∀ c n, s.constIds.lookup c = some n → t.constIds.lookup c = some n
  inputs : s.inputs <+: t.inputs
  constants : s.constants <+: t.constants
  assignments : s.assignments <+: t.assignments
  tables : s.tables <+: t.tables
  arrays : s.arrays <+: t.arrays
  codeSegments : s.codeSegments <+: t.codeSegments
  observables : s.observables <+: t.observables
  constraints : s.constraints <+: t.constraints
  assertions : s.assertions <+: t.assertions
  outputs : s.outputs <+: t.outputs
  kinds : ∀ k ∈ s.kinds, k ∈ t.kinds

@[refl]
theorem Grows.refl (s : Scope) : s.Grows s := by
  constructor <;> first | rfl | exact List.prefix_rfl | exact fun _ _ h => h | exact fun _ h => h

theorem Grows.trans {s t u : Scope} (h : s.Grows t) (h' : t.Grows u) : s.Grows u where
  number := h'.number.trans h.number
  level := h'.level.trans h.level
  config := h'.config.trans h.config
  branches := h'.branches.trans h.branches
  nodeKinds := h.nodeKinds.trans h'.nodeKinds
  exprIds e n hn := h'.exprIds e n (h.exprIds e n hn)
  constIds c n hn := h'.constIds c n (h.constIds c n hn)
  inputs := h.inputs.trans h'.inputs
  constants := h.constants.trans h'.constants
  assignments := h.assignments.trans h'.assignments
  tables := h.tables.trans h'.tables
  arrays := h.arrays.trans h'.arrays
  codeSegments := h.codeSegments.trans h'.codeSegments
  observables := h.observables.trans h'.observables
  constraints := h.constraints.trans h'.constraints
  assertions := h.assertions.trans h'.assertions
  outputs := h.outputs.trans h'.outputs
  kinds k hk := h'.kinds k (h.kinds k hk)

theorem Grows.nodeCount_le {s t : Scope} (h : s.Grows t) : s.nodeCount ≤ t.nodeCount :=
  h.nodeKinds.length_le

theorem Grows.kindOf? {s t : Scope} (h : s.Grows t) {n : NodeId} (hn : n < s.nodeCount) :
    t.kindOf? n = s.kindOf? n := by
  obtain ⟨ks, hks⟩ := h.nodeKinds
  rw [Scope.kindOf?, Scope.kindOf?, ← hks, List.getElem?_append_left hn]

theorem Grows.kindOf?_of_some {s t : Scope} (h : s.Grows t) {n : NodeId} {k : Kind}
    (hn : s.kindOf? n = some k) : t.kindOf? n = some k := by
  rw [h.kindOf? (List.getElem?_eq_some_iff.1 hn).1, hn]

end Growth

section Invariant

def inputIds (s : Scope) : List NodeId := s.inputs.map (·.node)

def constantIds (s : Scope) : List NodeId := s.constants.map (·.1)

/-- The nodes that expressions are assigned to. -/
def targets (s : Scope) : List NodeId := s.assignments.map (·.1)

structure Arena (s : Scope) : Prop where
  falsity : (NodeId.falsity, .bool false) ∈ s.constants
  truth : (NodeId.truth, .bool true) ∈ s.constants
  /-- Each node, and nothing else, is exactly once an input, a constant or a target. -/
  partition : (s.inputIds ++ s.constantIds ++ s.targets).Perm (List.range s.nodeCount)
  inputs_increasing : s.inputIds.Pairwise (· < ·)
  constants_increasing : s.constantIds.Pairwise (· < ·)
  targets_increasing : s.targets.Pairwise (· < ·)
  input_kind : ∀ i ∈ s.inputs, s.kindOf? i.node = some i.kind
  constant_kind : ∀ p ∈ s.constants, s.kindOf? p.1 = some p.2.kind
  args_lt : ∀ p ∈ s.assignments, ∀ a ∈ p.2.args, a < p.1
  exprs_nodup : (s.assignments.map (·.2)).Nodup
  literals_nodup : (s.constants.map (·.2)).Nodup
  exprIds_iff : ∀ e n, s.exprIds.lookup e = some n ↔ (n, e) ∈ s.assignments
  constIds_iff : ∀ c n, s.constIds.lookup c = some n ↔ (n, c) ∈ s.constants
  kinds_iff : ∀ k, k ∈ s.kinds ↔ k ∈ s.nodeKinds

variable {s : Scope}

theorem Arena.mem_iff (h : s.Arena) (n : NodeId) :
    n ∈ s.inputIds ∨ n ∈ s.constantIds ∨ n ∈ s.targets ↔ n < s.nodeCount := by
  have hp := h.partition.mem_iff (a := n)
  simpa only [List.mem_append, List.mem_range, or_assoc] using hp

theorem Arena.input_lt (h : s.Arena) {n : NodeId} (hn : n ∈ s.inputIds) : n < s.nodeCount :=
  (h.mem_iff n).1 (.inl hn)

theorem Arena.constant_lt (h : s.Arena) {n : NodeId} (hn : n ∈ s.constantIds) : n < s.nodeCount :=
  (h.mem_iff n).1 (.inr (.inl hn))

theorem Arena.target_lt (h : s.Arena) {n : NodeId} (hn : n ∈ s.targets) : n < s.nodeCount :=
  (h.mem_iff n).1 (.inr (.inr hn))

/-- What is recorded beside the nodes does not matter to them. -/
theorem Arena.artifacts (h : s.Arena) (tables : List Table) (arrays : List ArrayDecl)
    (codeSegments : List CodeSegment) (observables constraints assertions : List Labelled)
    (outputs : List NodeId) :
    ({ s with tables, arrays, codeSegments, observables, constraints, assertions, outputs } :
      Scope).Arena :=
  ⟨h.falsity, h.truth, h.partition, h.inputs_increasing, h.constants_increasing,
    h.targets_increasing, h.input_kind, h.constant_kind, h.args_lt, h.exprs_nodup,
    h.literals_nodup, h.exprIds_iff, h.constIds_iff, h.kinds_iff⟩

end Invariant

section Nodes

variable {s : Scope}

theorem constant_of_lookup {c : Literal} {n : NodeId} (h : s.constIds.lookup c = some n) :
    s.constant c = (n, s) := by
  simp only [constant, h]

theorem constant_of_lookup_none {c : Literal} (h : s.constIds.lookup c = none) :
    s.constant c = (s.nodeCount,
      { s with
        nodeKinds := s.nodeKinds ++ [c.kind]
        kinds := insertOrdered c.kind s.kinds
        constIds := (c, s.nodeCount) :: s.constIds
        constants := s.constants ++ [(s.nodeCount, c)] }) := by
  simp only [constant, h, freshNode]

theorem intern_of_lookup {e : Expr} {k : Kind} {n : NodeId} (h : s.exprIds.lookup e = some n) :
    s.intern e k = (.symbolic n k s.number, s) := by
  simp only [intern, h]

theorem intern_of_lookup_none {e : Expr} {k : Kind} (h : s.exprIds.lookup e = none) :
    s.intern e k = (.symbolic s.nodeCount k s.number,
      { s with
        nodeKinds := s.nodeKinds ++ [k]
        kinds := insertOrdered k s.kinds
        exprIds := (e, s.nodeCount) :: s.exprIds
        assignments := s.assignments ++ [(s.nodeCount, e)] }) := by
  simp only [intern, h, freshNode]

/-- An entry in front of a cache that did not have it hides nothing. -/
theorem lookup_cons_of_lookup_none {α β : Type} [DecidableEq α] {xs : List (α × β)} {a : α}
    (h : xs.lookup a = none) (b : β) (a' : α) (b' : β) :
    ((a, b) :: xs).lookup a' = some b' ↔ a' = a ∧ b' = b ∨ xs.lookup a' = some b' := by
  by_cases ha : a' = a
  · subst ha
    simp only [List.lookup_cons_self, Option.some.injEq, h, reduceCtorEq, or_false, true_and]
    exact eq_comm
  · rw [List.lookup_cons, beq_eq_false_iff_ne.2 ha]
    simp [ha]

theorem constant_grows (s : Scope) (c : Literal) : s.Grows (s.constant c).2 := by
  rcases h : s.constIds.lookup c with _ | n
  · rw [constant_of_lookup_none h]
    exact { Grows.refl s with
      nodeKinds := List.prefix_append _ _
      constIds := fun c' n hn => (lookup_cons_of_lookup_none h _ _ _).2 (.inr hn)
      constants := List.prefix_append _ _
      kinds := fun k hk => mem_insertOrdered.2 (.inr hk) }
  · rw [constant_of_lookup h]

theorem intern_grows (s : Scope) (e : Expr) (k : Kind) : s.Grows (s.intern e k).2 := by
  rcases h : s.exprIds.lookup e with _ | n
  · rw [intern_of_lookup_none h]
    exact { Grows.refl s with
      nodeKinds := List.prefix_append _ _
      exprIds := fun e' n hn => (lookup_cons_of_lookup_none h _ _ _).2 (.inr hn)
      assignments := List.prefix_append _ _
      kinds := fun k hk => mem_insertOrdered.2 (.inr hk) }
  · rw [intern_of_lookup h]

/-- The next node belongs to one of three lists that share out the nodes before it. -/
theorem partition_snoc {xs ys zs : List NodeId} {n : Nat}
    (h : (xs ++ ys ++ zs).Perm (List.range n)) :
    (xs ++ [n] ++ ys ++ zs).Perm (List.range (n + 1)) ∧
      (xs ++ (ys ++ [n]) ++ zs).Perm (List.range (n + 1)) ∧
      (xs ++ ys ++ (zs ++ [n])).Perm (List.range (n + 1)) := by
  have hn : (xs ++ ys ++ zs ++ [n]).Perm (List.range (n + 1)) := by
    rw [List.range_succ]
    exact h.append_right [n]
  refine ⟨?_, ?_, ?_⟩ <;> refine List.Perm.trans (List.perm_iff_count.2 fun a => ?_) hn <;>
    simp only [List.count_append] <;> omega

theorem increasing_snoc {xs : List NodeId} {n : Nat} (h : xs.Pairwise (· < ·))
    (hn : ∀ x ∈ xs, x < n) : (xs ++ [n]).Pairwise (· < ·) := by
  rw [List.pairwise_append]
  refine ⟨h, List.pairwise_singleton _ _, fun a ha b hb => ?_⟩
  rw [List.mem_singleton] at hb
  subst hb
  exact hn a ha

theorem nodup_snoc {α : Type} {xs : List α} {a : α} (h : xs.Nodup) (ha : a ∉ xs) :
    (xs ++ [a]).Nodup := by
  rw [List.nodup_append]
  refine ⟨h, List.pairwise_singleton _ _, fun x hx y hy => ?_⟩
  rw [List.mem_singleton] at hy
  subst hy
  rintro rfl
  exact ha hx

theorem getElem?_snoc {α : Type} {xs : List α} {x y : α} {i : Nat}
    (h : (xs ++ [x])[i]? = some y) : xs[i]? = some y ∨ i = xs.length ∧ y = x := by
  rcases Nat.lt_or_ge i xs.length with hlt | hge
  · exact .inl ((List.getElem?_append_left hlt).symm.trans h)
  · have hi : i = xs.length := by
      have hlt := (List.getElem?_eq_some_iff.1 h).1
      rw [List.length_append, List.length_singleton] at hlt
      omega
    rw [hi, List.getElem?_concat_length] at h
    exact .inr ⟨hi, (Option.some.inj h).symm⟩

theorem kindOf?_nodeCount (s : Scope) (k : Kind) : (s.nodeKinds ++ [k])[s.nodeCount]? = some k := by
  simp [nodeCount]

theorem Arena.constant (h : s.Arena) (c : Literal) : (s.constant c).2.Arena := by
  have hg := constant_grows s c
  rcases hc : s.constIds.lookup c with _ | n
  · have hnew : c ∉ s.constants.map (·.2) := by
      intro hm
      obtain ⟨⟨n, d⟩, hp, rfl⟩ := List.mem_map.1 hm
      rw [(h.constIds_iff d n).2 hp] at hc
      cases hc
    rw [constant_of_lookup_none hc] at hg ⊢
    exact {
      falsity := List.mem_append_left _ h.falsity
      truth := List.mem_append_left _ h.truth
      partition := by
        simpa [inputIds, constantIds, targets, nodeCount] using (partition_snoc h.partition).2.1
      inputs_increasing := h.inputs_increasing
      constants_increasing := by
        simpa [constantIds] using
          increasing_snoc h.constants_increasing fun _ => h.constant_lt
      targets_increasing := h.targets_increasing
      input_kind := fun i hi => hg.kindOf?_of_some (h.input_kind i hi)
      constant_kind := fun p hp => by
        rcases List.mem_append.1 hp with hp | hp
        · exact hg.kindOf?_of_some (h.constant_kind p hp)
        · rw [List.mem_singleton] at hp
          subst hp
          exact kindOf?_nodeCount s c.kind
      args_lt := h.args_lt
      exprs_nodup := h.exprs_nodup
      literals_nodup := by simpa using nodup_snoc h.literals_nodup hnew
      exprIds_iff := h.exprIds_iff
      constIds_iff := fun d n => by
        rw [lookup_cons_of_lookup_none hc, h.constIds_iff, List.mem_append, List.mem_singleton,
          Prod.mk.injEq, and_comm, or_comm]
      kinds_iff := fun k => by
        rw [mem_insertOrdered, h.kinds_iff, List.mem_append, List.mem_singleton, or_comm] }
  · rw [constant_of_lookup hc]
    exact h

theorem Arena.intern (h : s.Arena) {e : Expr} (he : ∀ a ∈ e.args, a < s.nodeCount) (k : Kind) :
    (s.intern e k).2.Arena := by
  have hg := intern_grows s e k
  rcases hc : s.exprIds.lookup e with _ | n
  · have hnew : e ∉ s.assignments.map (·.2) := by
      intro hm
      obtain ⟨⟨n, d⟩, hp, rfl⟩ := List.mem_map.1 hm
      rw [(h.exprIds_iff d n).2 hp] at hc
      cases hc
    rw [intern_of_lookup_none hc] at hg ⊢
    exact {
      falsity := h.falsity
      truth := h.truth
      partition := by
        simpa [inputIds, constantIds, targets, nodeCount] using (partition_snoc h.partition).2.2
      inputs_increasing := h.inputs_increasing
      constants_increasing := h.constants_increasing
      targets_increasing := by
        simpa [targets] using increasing_snoc h.targets_increasing fun _ => h.target_lt
      input_kind := fun i hi => hg.kindOf?_of_some (h.input_kind i hi)
      constant_kind := fun p hp => hg.kindOf?_of_some (h.constant_kind p hp)
      args_lt := fun p hp => by
        rcases List.mem_append.1 hp with hp | hp
        · exact h.args_lt p hp
        · rw [List.mem_singleton] at hp
          subst hp
          exact he
      exprs_nodup := by simpa using nodup_snoc h.exprs_nodup hnew
      literals_nodup := h.literals_nodup
      exprIds_iff := fun d n => by
        rw [lookup_cons_of_lookup_none hc, h.exprIds_iff, List.mem_append, List.mem_singleton,
          Prod.mk.injEq, and_comm, or_comm]
      constIds_iff := h.constIds_iff
      kinds_iff := fun k' => by
        rw [mem_insertOrdered, h.kinds_iff, List.mem_append, List.mem_singleton, or_comm] }
  · rw [intern_of_lookup hc]
    exact h

/-- A scope with a new input. -/
def addInput (s : Scope) (role : InputRole) (name : String) (k : Kind) : Scope :=
  { s with
    nodeKinds := s.nodeKinds ++ [k]
    kinds := insertOrdered k s.kinds
    inputs := s.inputs ++ [⟨s.nodeCount, name, k, role⟩] }

theorem addInput_grows (s : Scope) (role : InputRole) (name : String) (k : Kind) :
    s.Grows (s.addInput role name k) :=
  { Grows.refl s with
    nodeKinds := List.prefix_append _ _
    inputs := List.prefix_append _ _
    kinds := fun _ hk => mem_insertOrdered.2 (.inr hk) }

theorem Arena.addInput (h : s.Arena) (role : InputRole) (name : String) (k : Kind) :
    (s.addInput role name k).Arena := by
  have hg := addInput_grows s role name k
  exact {
    falsity := h.falsity
    truth := h.truth
    partition := by
      simpa [inputIds, constantIds, targets, nodeCount, Scope.addInput] using
        (partition_snoc h.partition).1
    inputs_increasing := by
      simpa [inputIds, Scope.addInput] using
        increasing_snoc h.inputs_increasing fun _ => h.input_lt
    constants_increasing := h.constants_increasing
    targets_increasing := h.targets_increasing
    input_kind := fun i hi => by
      rcases List.mem_append.1 hi with hi | hi
      · exact hg.kindOf?_of_some (h.input_kind i hi)
      · rw [List.mem_singleton] at hi
        subst hi
        exact kindOf?_nodeCount s k
    constant_kind := fun p hp => hg.kindOf?_of_some (h.constant_kind p hp)
    args_lt := h.args_lt
    exprs_nodup := h.exprs_nodup
    literals_nodup := h.literals_nodup
    exprIds_iff := h.exprIds_iff
    constIds_iff := h.constIds_iff
    kinds_iff := fun k' => by
      simp only [Scope.addInput]
      rw [mem_insertOrdered, h.kinds_iff, List.mem_append, List.mem_singleton, or_comm] }

theorem Arena.constant_mem (h : s.Arena) (c : Literal) :
    ((s.constant c).1, c) ∈ (s.constant c).2.constants := by
  rcases hc : s.constIds.lookup c with _ | n
  · rw [constant_of_lookup_none hc]
    exact List.mem_append_right _ (List.mem_singleton.2 rfl)
  · rw [constant_of_lookup hc]
    exact (h.constIds_iff c n).1 hc

theorem Arena.intern_mem (h : s.Arena) (e : Expr) (k : Kind) :
    ∃ n, (s.intern e k).1 = .symbolic n k s.number ∧ (n, e) ∈ (s.intern e k).2.assignments := by
  rcases hc : s.exprIds.lookup e with _ | n
  · rw [intern_of_lookup_none hc]
    exact ⟨_, rfl, List.mem_append_right _ (List.mem_singleton.2 rfl)⟩
  · rw [intern_of_lookup hc]
    exact ⟨n, rfl, (h.exprIds_iff e n).1 hc⟩

theorem Arena.constant_id_lt (h : s.Arena) {n : NodeId} {c : Literal} (hn : (n, c) ∈ s.constants) :
    n < s.nodeCount := h.constant_lt (List.mem_map_of_mem hn)

theorem Arena.target_id_lt (h : s.Arena) {n : NodeId} {e : Expr} (hn : (n, e) ∈ s.assignments) :
    n < s.nodeCount := h.target_lt (List.mem_map_of_mem hn)

end Nodes

theorem blank_eq (number level : Nat) (config : Config) (branches : BranchIds) :
    blank number level config branches =
      ⟨number, level, config, branches, [.bool, .bool], [], [(.bool true, 1), (.bool false, 0)], [],
        [(0, .bool false), (1, .bool true)], [], [], [], [], [], [], [], [], [.bool]⟩ := rfl

theorem blank_arena (number level : Nat) (config : Config) (branches : BranchIds) :
    (blank number level config branches).Arena := by
  rw [blank_eq]
  constructor
  case partition => exact List.Perm.refl _
  case constIds_iff =>
    intro c n
    rw [lookup_cons_of_lookup_none (by decide), lookup_cons_of_lookup_none (by decide)]
    simp only [List.lookup_nil, reduceCtorEq, or_false, List.mem_cons, Prod.mk.injEq,
      List.not_mem_nil]
    tauto
  all_goals simp [inputIds, constantIds, targets, kindOf?, NodeId.falsity, NodeId.truth,
    Literal.bool]

end Scope

end SmtLowering
