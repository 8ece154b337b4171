import SmtLowering.Proofs.Declarations
import SmtLowering.Proofs.Reading
import SmtLowering.Proofs.Records
import SmtLowering.Proofs.Targets

/-!
# Functions that a body captures

A body names its parameters and bindings after nodes, and a function by whatever name the caller
chose. `ValidTrace.nest` is the body with its scopes, and spelling it gives the body's text
(`ValidTrace.body_eq_text`). An application is captured if it stands in the scope of a parameter or
a binding of its name. The names of a body's nodes carry the level and a number from two on, so it
captures no function but one of such a name, and that one exactly if the node is a parameter, a
constant or assigned before (`Target.captures_iff`). Nothing keeps a caller from such a name: the
node then hides the function (`Target.lambda_captures`).
-/

namespace SmtLowering

namespace ValidTrace

/-- What a body binds or ends with. -/
inductive Item
  | constant (c : Literal)
  | expr (e : Expr)
  | output (n : NodeId)

def Item.text (t : ValidTrace) : Item → String
  | .constant c =>
    match c.smt t.rounding with
    | .ok text => text
    | .error _ => ""
  | .expr e => e.render (NodeId.smtName t.level)
  | .output n => NodeId.smtName t.level n

/-- The function that is applied. -/
def Item.applied? : Item → Option String
  | .expr e => e.appliedName?
  | .constant _ | .output _ => none

/-- A body with its scopes: what is bound to a node is outside the node's scope. -/
inductive Nest
  | item (i : Item)
  | bind (n : NodeId) (i : Item) (rest : Nest)

namespace Nest

/-- The lines, each after `pad`, with this many parentheses to close beyond the nest's own. -/
def text (t : ValidTrace) (pad : String) : Nest → Nat → String
  | item i, closing => pad ++ i.text t ++ "".pushn ')' closing
  | bind n i rest, closing =>
    s!"{pad}(let (({NodeId.smtName t.level n} {i.text t}))" ++ "\n" ++ rest.text t pad (closing + 1)

/-- An application of `f` stands in the scope of a node of that name; those in `bound` are bound
around the nest. -/
def Captures (level : Nat) (f : String) : Nest → List NodeId → Prop
  | item i, bound => i.applied? = some f ∧ ∃ m ∈ bound, f = NodeId.smtName level m
  | bind n i rest, bound =>
    (i.applied? = some f ∧ ∃ m ∈ bound, f = NodeId.smtName level m) ∨
      rest.Captures level f (n :: bound)

end Nest

def items (t : ValidTrace) : List (NodeId × Item) :=
  (t.constants.map fun (n, c) => (n, .constant c)) ++ t.assignments.map fun (n, e) => (n, .expr e)

/-- The items nested around the output. -/
def nested (items : List (NodeId × Item)) (output : NodeId) : Nest :=
  items.foldr (fun (n, i) rest => .bind n i rest) (.item (.output output))

/-- The body: one item, if it is the output, or all of them nested. -/
def nest (t : ValidTrace) : Nest :=
  match t.items with
  | [(n, i)] => if n = t.output then .item i else nested [(n, i)] t.output
  | items => nested items t.output

/-- The body captures an application of `f`. -/
def Captures (t : ValidTrace) (f : String) : Prop :=
  t.nest.Captures t.level f (t.params.map (·.1))

section Text

variable {t : ValidTrace} {d : Definition}

theorem nested_text (pad : String) (items : List (NodeId × Item)) (closing : Nat) :
    (nested items t.output).text t pad closing =
      chainText pad (items.map fun p => (NodeId.smtName t.level p.1, p.2.text t))
        (NodeId.smtName t.level t.output) (items.length + closing) := by
  induction items generalizing closing with
  | nil =>
    rw [List.length_nil, Nat.zero_add]
    exact (String.intercalate_singleton ..).symm
  | cons p items ih =>
    obtain ⟨n, i⟩ := p
    rw [List.map_cons, chainText_line, List.length_cons, Nat.add_assoc, Nat.add_comm 1 closing,
      ← ih]
    rfl

theorem mapM_constants {bs : List (String × String)} {cs : List (NodeId × Literal)}
    (h : (cs.mapM fun p => do
      let text ← p.2.smt t.rounding
      pure (NodeId.smtName t.level p.1, text)) = .ok bs) :
    bs = cs.map fun p => (NodeId.smtName t.level p.1, (Item.constant p.2).text t) := by
  induction cs generalizing bs with
  | nil =>
    cases h
    rfl
  | cons p cs ih =>
    rw [List.mapM_cons] at h
    obtain ⟨b, hb, h⟩ := bind_eq_ok h
    obtain ⟨bs', hbs, h⟩ := bind_eq_ok h
    obtain ⟨text, htext, hb⟩ := bind_eq_ok hb
    cases h
    cases hb
    rw [ih hbs, List.map_cons, Item.text, htext]

/-- The definition binds the items. -/
theorem bindings_eq (h : Definition.ofTrace t = .ok d) :
    d.params.map (·.1) = t.params.map (fun p => NodeId.smtName t.level p.1) ∧
    d.bindings = t.items.map (fun p => (NodeId.smtName t.level p.1, p.2.text t)) ∧
      d.output = NodeId.smtName t.level t.output := by
  obtain ⟨bs, hbs, h⟩ := bind_eq_ok h
  cases h
  refine ⟨?_, ?_, rfl⟩
  · rw [List.map_map]
    rfl
  · rw [mapM_constants hbs, items, List.map_append, List.map_map, List.map_map]
    rfl

/-- The body's text is that of the nest. -/
theorem body_eq_text (h : Definition.ofTrace t = .ok d) (indent : Nat) :
    d.body indent = t.nest.text t ("".pushn ' ' indent) 0 := by
  obtain ⟨-, hbs, hout⟩ := bindings_eq h
  have hnested : d.nestedBody ("".pushn ' ' indent) =
      (nested t.items t.output).text t ("".pushn ' ' indent) 0 := by
    rw [nested_text, Nat.add_zero, ← hbs, ← hout, ← List.length_map, ← hbs]
    rfl
  unfold Definition.body Definition.simpleTerm? nest
  rw [hbs]
  rcases hitems : t.items with _ | ⟨⟨n, i⟩, _ | ⟨p, rest⟩⟩ <;> rw [hitems] at hnested
  · exact hnested
  · simp only [List.map_cons, List.map_nil, hout]
    by_cases hn : n = t.output
    · rw [if_pos hn, if_pos (congrArg _ hn)]
      exact String.append_empty.symm
    · rw [if_neg hn, if_neg fun h => hn (NodeId.smtName_injective h)]
      exact hnested
  · exact hnested

end Text

section Captures

variable {t : ValidTrace} {level : Nat} {f : String} {output : NodeId} {bound : List NodeId}

theorem nest_captures :
    t.nest.Captures level f bound ↔ (nested t.items t.output).Captures level f bound := by
  unfold nest
  rcases t.items with _ | ⟨⟨n, i⟩, _ | ⟨p, rest⟩⟩
  · exact Iff.rfl
  · simp only
    split_ifs
    · simp [nested, Nest.Captures, Item.applied?]
    · exact Iff.rfl
  · exact Iff.rfl

/-- Constants apply nothing and are bound around the rest. -/
theorem captures_constants (cs : List (NodeId × Literal)) (items : List (NodeId × Item)) :
    (nested ((cs.map fun (n, c) => (n, .constant c)) ++ items) output).Captures level f bound ↔
      (nested items output).Captures level f ((cs.map (·.1)).reverse ++ bound) := by
  induction cs generalizing bound with
  | nil => exact Iff.rfl
  | cons p cs ih =>
    have hbound :
        ((p :: cs).map (·.1)).reverse ++ bound = (cs.map (·.1)).reverse ++ p.1 :: bound := by
      rw [List.map_cons, List.reverse_cons, List.append_assoc, List.singleton_append]
    rw [hbound, ← ih]
    exact or_iff_right fun h => by cases h.1

/-- An assignment is in the scope of what is bound around all of them and of the earlier ones. -/
theorem captures_assignments {as : List (NodeId × Expr)}
    (h : (as.map (·.1)).Pairwise (· < ·)) :
    (nested (as.map fun (n, e) => (n, .expr e)) output).Captures level f bound ↔
      ∃ p ∈ as, p.2.appliedName? = some f ∧
        ∃ m, (m ∈ bound ∨ m ∈ as.map (·.1) ∧ m < p.1) ∧ f = NodeId.smtName level m := by
  induction as generalizing bound with
  | nil => simp [nested, Nest.Captures, Item.applied?]
  | cons q as ih =>
    rw [List.map_cons, List.pairwise_cons] at h
    obtain ⟨hq, h⟩ := h
    have hhead (m : NodeId) :
        (m ∈ bound ∨ m ∈ (q :: as).map (·.1) ∧ m < q.1) ↔ m ∈ bound := by
      refine or_iff_left fun ⟨hm, hlt⟩ => ?_
      rcases List.mem_cons.1 hm with rfl | hm
      · exact lt_irrefl _ hlt
      · exact lt_asymm hlt (hq m hm)
    have htail (p) (hp : p ∈ as) (m : NodeId) :
        (m ∈ bound ∨ m ∈ (q :: as).map (·.1) ∧ m < p.1) ↔
          (m ∈ q.1 :: bound ∨ m ∈ as.map (·.1) ∧ m < p.1) := by
      have hlt := hq p.1 (List.mem_map_of_mem hp)
      rw [List.map_cons, List.mem_cons, List.mem_cons]
      constructor
      · rintro (hm | ⟨rfl | hm, hlt⟩)
        · exact .inl (.inr hm)
        · exact .inl (.inl rfl)
        · exact .inr ⟨hm, hlt⟩
      · rintro ((rfl | hm) | ⟨hm, hlt⟩)
        · exact .inr ⟨.inl rfl, hlt⟩
        · exact .inl hm
        · exact .inr ⟨.inr hm, hlt⟩
    rw [List.exists_mem_cons_iff]
    refine or_congr ?_ ((ih h).trans (exists_congr fun p => and_congr_right fun hp => ?_))
    · simp only [hhead]
      exact Iff.rfl
    · simp only [htail p hp]

/-- A node `m` is bound where the function is applied. -/
def Covers (t : ValidTrace) (m : NodeId) (f : String) : Prop :=
  ∃ p ∈ t.assignments, p.2.appliedName? = some f ∧
    (m ∈ t.params.map (·.1) ∨ m ∈ t.constants.map (·.1) ∨ m ∈ t.assignments.map (·.1) ∧ m < p.1)

/-- A function is captured by a node of its name that is bound where it is applied. -/
theorem captures_iff_covers (h : (t.assignments.map (·.1)).Pairwise (· < ·)) :
    t.Captures f ↔ ∃ m, f = NodeId.smtName t.level m ∧ t.Covers m f := by
  rw [Captures, nest_captures, items, captures_constants, captures_assignments h]
  simp only [List.mem_append, List.mem_reverse, Covers]
  constructor
  · rintro ⟨p, hp, hf, m, (hm | hm) | hm, hname⟩
    · exact ⟨m, hname, p, hp, hf, .inr (.inl hm)⟩
    · exact ⟨m, hname, p, hp, hf, .inl hm⟩
    · exact ⟨m, hname, p, hp, hf, .inr (.inr hm)⟩
  · rintro ⟨m, hname, p, hp, hf, hm | hm | hm⟩
    · exact ⟨p, hp, hf, m, .inl (.inr hm), hname⟩
    · exact ⟨p, hp, hf, m, .inl (.inl hm), hname⟩
    · exact ⟨p, hp, hf, m, .inr hm, hname⟩

end Captures

end ValidTrace

section Numbers

/-- Inputs and targets are numbered from two on, targets in order. -/
structure Scope.Numbered (s : Scope) : Prop where
  two_le : 2 ≤ s.nodeCount
  inputs : ∀ n ∈ s.inputIds, 2 ≤ n
  targets : ∀ n ∈ s.targets, 2 ≤ n ∧ n < s.nodeCount
  increasing : s.targets.Pairwise (· < ·)

/-- Each node is exactly once an input, a constant or a target; the truth values are constants, and
targets are in order. Unlike an arena, this asks nothing of the operands of expressions, so it is
kept whatever values an operation is given. -/
structure Scope.Partitioned (s : Scope) : Prop where
  falsity : NodeId.falsity ∈ s.constantIds
  truth : NodeId.truth ∈ s.constantIds
  partition : (s.inputIds ++ s.constantIds ++ s.targets).Perm (List.range s.nodeCount)
  increasing : s.targets.Pairwise (· < ·)

namespace Scope.Partitioned

variable {s : Scope} (h : s.Partitioned)
include h

theorem nodup : (s.inputIds ++ s.constantIds ++ s.targets).Nodup :=
  h.partition.nodup_iff.2 List.nodup_range

theorem lt_nodeCount {n : NodeId} (hn : n ∈ s.inputIds ++ s.constantIds ++ s.targets) :
    n < s.nodeCount := List.mem_range.1 (h.partition.mem_iff.1 hn)

/-- What is no constant is no truth value. -/
theorem two_le_of_not_mem {n : NodeId} (hn : n ∉ s.constantIds) : 2 ≤ n := by
  have hne : ∀ m ∈ s.constantIds, n ≠ m := fun m hm heq => hn (heq ▸ hm)
  exact (Nat.two_le_iff n).2 ⟨hne _ h.falsity, hne _ h.truth⟩

theorem input_not_mem {n : NodeId} (hn : n ∈ s.inputIds) : n ∉ s.constantIds :=
  fun hc => (List.nodup_append.1 (List.nodup_append.1 h.nodup).1).2.2 n hn n hc rfl

theorem target_not_mem {n : NodeId} (hn : n ∈ s.targets) : n ∉ s.constantIds :=
  fun hc => (List.nodup_append.1 h.nodup).2.2 n (List.mem_append_right _ hc) n hn rfl

theorem numbered : s.Numbered where
  two_le := h.lt_nodeCount (List.mem_append_left _ (List.mem_append_right _ h.truth))
  inputs _ hn := h.two_le_of_not_mem (h.input_not_mem hn)
  targets _ hn :=
    ⟨h.two_le_of_not_mem (h.target_not_mem hn), h.lt_nodeCount (List.mem_append_right _ hn)⟩
  increasing := h.increasing

end Scope.Partitioned

/-- New scopes have the property, and no operation takes it from a scope. -/
structure Scope.Invariant (I : Scope → Prop) : Prop where
  blank : ∀ number level config branches, I (.blank number level config branches)
  stable : ∀ (o : Operation) (w : Workspace), o.Stable w I

theorem Scope.invariant_partitioned : Scope.Invariant Scope.Partitioned where
  blank number level config branches := by
    rw [Scope.blank_eq]
    exact ⟨List.mem_cons_self, List.mem_cons_of_mem _ List.mem_cons_self, .refl _, .nil⟩
  stable o w :=
    { constant := fun {s} c h => by
        rcases hc : s.constIds.lookup c with _ | n
        · rw [Scope.constant_of_lookup_none hc]
          refine ⟨?_, ?_, ?_, h.increasing⟩
          · rw [constantIds, List.map_append]
            exact List.mem_append_left _ h.falsity
          · rw [constantIds, List.map_append]
            exact List.mem_append_left _ h.truth
          · simpa [inputIds, constantIds, targets, nodeCount] using
              (partition_snoc h.partition).2.1
        · rw [Scope.constant_of_lookup hc]
          exact h
      intern := fun {s} e k _ h => by
        rcases he : s.exprIds.lookup e with _ | n
        · rw [Scope.intern_of_lookup_none he]
          refine ⟨h.falsity, h.truth, ?_, ?_⟩
          · simpa [inputIds, constantIds, targets, nodeCount] using
              (partition_snoc h.partition).2.2
          · simpa [targets] using
              increasing_snoc h.increasing fun n hn => h.lt_nodeCount (List.mem_append_right _ hn)
        · rw [Scope.intern_of_lookup he]
          exact h
      addInput := fun {s} role name k h => by
        refine ⟨h.falsity, h.truth, ?_, h.increasing⟩
        simpa [inputIds, constantIds, targets, nodeCount, Scope.addInput] using
          (partition_snoc h.partition).1
      table := fun _ _ _ h => ⟨h.falsity, h.truth, h.partition, h.increasing⟩
      artifacts := fun _ _ _ _ _ _ h => ⟨h.falsity, h.truth, h.partition, h.increasing⟩ }

/-- A computation keeps its scope's level and invariants. -/
theorem Scope.Invariant.relates {I : Scope → Prop} (hI : Scope.Invariant I) :
    Computation.Relates (fun _ => True) fun w w' =>
      w'.scope.level = w.scope.level ∧ (I w.scope → I w'.scope) where
  output _ := trivial
  refl _ := ⟨rfl, id⟩
  trans _ _ _ h h' := ⟨h'.1.trans h.1, h'.2 ∘ h.2⟩
  operate o w _ := by
    rw [Operation.outcome_run]
    exact ⟨(o.scopeStep_grows w).level, fun h => ((hI.stable o w).scopeStep h).2.1⟩
  conclude _ _ _ _ _ _ _ _ := ⟨rfl, id⟩

end Numbers

/-- Below the outermost level a node's name has the level and the number. -/
theorem NodeId.smtName_below (level : Nat) {m : NodeId} (hm : 2 ≤ m) :
    smtName (level + 1) m = s!"l{level + 1}_s{m}" := by
  obtain ⟨h0, h1⟩ := (Nat.two_le_iff m).1 hm
  exact (if_neg h0).trans ((if_neg h1).trans (if_neg (Nat.succ_ne_zero level)))

/-- No truth value is bound. -/
theorem ValidTrace.Covers.two_le {u : Scope} (hu : u.Numbered) {k : Kind} {output m : NodeId}
    {f : String} (h : (u.finish.valid k output).Covers m f) : 2 ≤ m := by
  obtain ⟨p, -, -, hm | hm | ⟨hm, -⟩⟩ := h
  · rw [Trace.valid, List.map_map] at hm
    exact hu.inputs m hm
  · obtain ⟨q, hq, rfl⟩ := List.mem_map.1 hm
    have htruth := (List.mem_filter.1 hq).2
    rwa [Bool.not_eq_true', ← Bool.not_eq_true, NodeId.isTruthValue_iff, Nat.not_lt] at htruth
  · exact (hu.targets m hm).1

namespace Target

/-- The result that a definition is given out as. -/
def wrap (d : Definition) : (t : Target) → t.Result
  | lambda _ => d.lambdaText
  | function name k => .ofDefinition name k d
  | constraint label => d.constraintText label

variable {t : Target} {w : Workspace}

/-- What is emitted is the definition that the trace spells. -/
theorem emit_eq_ok {v : ValidTrace} {a : t.Result} (h : t.emit w v = .ok a)
    (hv : v.outputKind = t.expected) : ∃ d, Definition.ofTrace v = .ok d ∧ a = t.wrap d := by
  cases t with
  | lambda k | constraint label =>
    obtain ⟨d, hd, h⟩ := bind_eq_ok (mapError_eq_ok h)
    cases h
    exact ⟨d, hd, rfl⟩
  | function name k =>
    have hdecl : v.declaration name = .ok a := by
      simp only [emit] at h
      split at h
      · split_ifs at h
        exact mapError_eq_ok h
      · exact mapError_eq_ok h
    obtain ⟨d, hd, -, rfl⟩ := Declaration.exists_ofDefinition hdecl
    exact ⟨d, hd, by rw [hv]; rfl⟩

/-- What a computation leaves in its fork is one level below the parent, as it was when new. -/
theorem replayed_invariant {I : Scope → Prop} (hI : Scope.Invariant I) {child : Scope} {s : Session}
    (h : t.start w = .ok (child, s)) (c : Computation) :
    (outcome (Lowering.replayed c.run) ⟨s, child⟩).2.scope.level = w.scope.level + 1 ∧
      I (outcome (Lowering.replayed c.run) ⟨s, child⟩).2.scope := by
  have hchild := Session.fork_blank (start_eq_ok h).1
  obtain ⟨hlevel, hkept⟩ := hI.relates.replayed (hI.relates.run c c.uses_true ⟨s, child⟩)
  refine ⟨hlevel.trans ?_, hkept ?_⟩
  · rw [hchild, Scope.blank_eq]
  · rw [hchild]
    exact hI.blank _ _ _ _

/-- What a lowering gives out is the definition of the valid trace of a scope one level below. -/
theorem exists_definition {c : Computation} {a : t.Result} {s : Session}
    (h : (t.lower w.scope c.run).run.run w.session = (.ok a, s)) :
    ∃ (u : Scope) (output : NodeId) (d : Definition), u.level = w.scope.level + 1 ∧ u.Numbered ∧
      Definition.ofTrace (u.finish.valid t.expected output) = .ok d ∧ a = t.wrap d := by
  obtain ⟨child, s', v, ha, hv, hemit⟩ := lower_ok h
  obtain ⟨hlevel, hu⟩ := replayed_invariant Scope.invariant_partitioned ha c
  obtain ⟨-, -, output, -, rfl⟩ := Trace.validate_ok hv
  obtain ⟨d, hd, ha⟩ := emit_eq_ok hemit rfl
  exact ⟨_, output, d, hlevel, hu.numbered, hd, ha⟩

/-- What a lowering gives out is the definition of a body one level below the parent. The body
captures an application of `f` exactly if `f` is what a node is named at that level, a number from
two on, and the node is a parameter, a constant or assigned before. -/
theorem captures_iff (t : Target) (w : Workspace) (c : Computation) {a : t.Result} {s : Session}
    (h : (t.lower w.scope c.run).run.run w.session = (.ok a, s)) :
    ∃ v d, Definition.ofTrace v = .ok d ∧ a = t.wrap d ∧ v.level = w.scope.level + 1 ∧
      (∀ indent, d.body indent = v.nest.text v ("".pushn ' ' indent) 0) ∧
      d.params.map (·.1) = v.params.map (fun p => NodeId.smtName v.level p.1) ∧
      ∀ f, v.Captures f ↔
        ∃ m, 2 ≤ m ∧ f = s!"l{w.scope.level + 1}_s{m}" ∧ v.Covers m f := by
  obtain ⟨u, output, d, hlevel, hu, hd, ha⟩ := exists_definition h
  refine ⟨_, d, hd, ha, hlevel, ValidTrace.body_eq_text hd, (ValidTrace.bindings_eq hd).1,
    fun f => ?_⟩
  have hname {m : NodeId} (hm : 2 ≤ m) :
      NodeId.smtName (u.finish.valid t.expected output).level m =
        s!"l{w.scope.level + 1}_s{m}" := by
    rw [← NodeId.smtName_below _ hm, ← hlevel]
    rfl
  rw [ValidTrace.captures_iff_covers (t := u.finish.valid t.expected output) hu.increasing]
  refine exists_congr fun m => ?_
  constructor
  · rintro ⟨hf, hcovers⟩
    exact ⟨hcovers.two_le hu, hf.trans (hname (hcovers.two_le hu)), hcovers⟩
  · rintro ⟨hm, hf, hcovers⟩
    exact ⟨hf.trans (hname hm).symm, hcovers⟩

/-- Applies functions to an input, one after the other. -/
def appliesInTurn (names : List String) : Computation :=
  .operate (.input .universal "x" .int) fun x => apply names (x.toOption.join.getD (.bool false))
where
  apply : List String → Value → Computation
    | [], v => .result v
    | f :: fs, v => .operate (.apply f .int [v]) fun r => apply fs (r.toOption.join.getD v)

/-- Functions that are named like nodes of other levels are not captured. -/
theorem captures_iff_otherLevels :
    ∃ v d, Definition.ofTrace v = .ok d ∧
      d.lambdaText = "(lambda ((l1_s2 Int))\n  (let ((l1_s3 (s2 l1_s2)))\n" ++
        "  (let ((l1_s4 (l2_s2 l1_s3)))\n  l1_s4)))" ∧
      ¬v.Captures "s2" ∧ ¬v.Captures "l2_s2" := by
  have hrun : (((lambda .int).lower (Workspace.new {}).scope
      (appliesInTurn ["s2", "l2_s2"]).run).run.run (Workspace.new {}).session).1 =
        .ok ("(lambda ((l1_s2 Int))\n  (let ((l1_s3 (s2 l1_s2)))\n" ++
          "  (let ((l1_s4 (l2_s2 l1_s3)))\n  l1_s4)))") := by decide +kernel
  generalize hlower : ((lambda .int).lower (Workspace.new {}).scope
    (appliesInTurn ["s2", "l2_s2"]).run).run.run (Workspace.new {}).session = p at hrun
  obtain ⟨a, s⟩ := p
  obtain rfl := hrun
  obtain ⟨v, d, hd, ha, -, -, -, hcaptures⟩ := captures_iff _ _ _ hlower
  refine ⟨v, d, hd, ha.symm, fun h => ?_, fun h => ?_⟩
  · obtain ⟨m, -, hname, -⟩ := (hcaptures _).1 h
    have hhead := congrArg (fun s : String => s.toList.head?) hname
    simp at hhead
  · obtain ⟨m, -, hname, -⟩ := (hcaptures _).1 h
    have hlevel := congrArg (fun s : String => s.toList[1]?) hname
    have hzero : (Workspace.new {}).scope.level = 0 := rfl
    have hone : Nat.toDigits 10 1 = ['1'] := by decide
    simp [hzero, hone] at hlevel

/-- Applies a function without arguments where there is one parameter. -/
def hiddenCall : Computation :=
  .operate (.input .universal "x" .int) fun _ => .call "l1_s2" .int

/-- A lambda's parameter hides the function that its body applies, although the function is declared
and is among the free names. -/
theorem lambda_captures :
    ∃ v d, ((Lowering.trace (Workspace.new {}).scope .lambda Purpose.lambda.describe .int
        hiddenCall.run).run.run (Workspace.new {}).session).1 = .ok v ∧
      Definition.ofTrace v = .ok d ∧ d.freeNames = ["l1_s2"] ∧ v.Captures "l1_s2" ∧
      (((lambda .int).lower (Workspace.new {}).scope hiddenCall.run).run.run
        (Workspace.new {}).session).1 = .ok "(lambda ((l1_s2 Int))\n  l1_s2)" ∧
      ((Workspace.new {}).resume (((lambda .int).lower (Workspace.new {}).scope
        hiddenCall.run).run.run (Workspace.new {}).session).2).declarations =
          ["(declare-fun l1_s2 () Int)"] := by
  let v : ValidTrace :=
    ⟨1, .nearestEven, [(2, .int)], [], [(3, ⟨.apply "l1_s2", .int, []⟩)], 3, .int, ["l1_s2"]⟩
  have hcaptures : v.Captures "l1_s2" := ⟨rfl, 2, List.mem_singleton_self 2, by decide +kernel⟩
  exact ⟨v, ⟨["l1_s2"], [("l1_s2", .int)], [("l1_s3", "l1_s2")], "l1_s3"⟩, by decide +kernel,
    by decide +kernel, rfl, hcaptures, by decide +kernel, by decide +kernel⟩

end Target

end SmtLowering
