import SmtLowering.Lowering.Emission
import SmtLowering.Proofs.Chains
import SmtLowering.Proofs.Validation

/-!
# Lowered bodies

The trace of a scope that passes validation is spelled as a definition, and the definition's body,
at whatever indentation, reads back as a term that is closed and has the value of the output
(`World.body_preserves_value`). Constants go before all assignments and truth values are left out,
which no name notices: each operand is an input, a truth value, a constant or an earlier target
(`ValidTrace.IsTraceOf.knows`).
-/

namespace SmtLowering

/-- The S-expression is how the literal is spelled. -/
def Literal.isSpelled (mode : RoundingMode) (e : SExpr) (c : Literal) : Bool :=
  match c.smt mode with
  | .ok text => SExpr.read text = some e
  | .error _ => false

/-- The constant of that name, if the S-expression is how it is spelled. -/
def ValidTrace.literals (t : ValidTrace) : Literals := fun x e =>
  ((t.constants.map fun p => (NodeId.smtName t.level p.1, p.2)).lookup x).filter
    (Literal.isSpelled t.rounding e)

/-- The term that a text stands for as the body of the trace's definition. -/
def ValidTrace.readBody? (t : ValidTrace) (text : String) : Option Term :=
  (SExpr.read text).bind (SExpr.term t.literals (some (NodeId.smtName t.level t.output)))

/-- Literals are well formed, sorts and functions are named by symbols, and functions neither like
a symbol of the theories nor like a node. -/
structure ValidTrace.Expressible (t : ValidTrace) : Prop where
  literals : ∀ p ∈ t.constants, p.2.WellFormed
  sorts : ∀ p ∈ t.params, p.2.Named
  symbols : ∀ f ∈ t.freeNames, IsSymbol f
  foreign : ∀ f ∈ t.freeNames, f ∉ theoryNames
  fresh : ∀ f ∈ t.freeNames, ∀ n, f ≠ NodeId.smtName t.level n

/-- The trace is what validation leaves of the scope's. -/
structure ValidTrace.IsTraceOf (t : ValidTrace) (c : Scope) : Prop where
  arena : c.Arena
  params : t.params = c.inputs.map fun i => (i.node, i.kind)
  constants : t.constants = c.constants.filter fun p => !p.1.isTruthValue
  assignments : t.assignments = c.assignments
  output : t.output < c.nodeCount
  emittable : ∀ p ∈ t.assignments, p.2.Emittable t.freeNames

section Validation

theorem World.isTraceOf {w : World} (hw : w.Reachable) {c : Scope} (hc : c ∈ w.scopes)
    {context : String} {expected : Kind} {t : ValidTrace}
    (ht : c.finish.validate context expected = .ok t) : t.IsTraceOf c := by
  obtain ⟨htables, harrays, out, hout, rfl⟩ := Trace.validate_ok ht
  have hconf := hw.recorded.scopes c hc
  refine ⟨hconf.arena, rfl, rfl, rfl, (List.getElem?_eq_some_iff.1 hout).1, fun p hp => ?_⟩
  obtain ⟨k, -, hdeclares, htakes⟩ := hconf.exprs p hp
  refine ⟨htakes, fun hnamed => ?_⟩
  cases hop : p.2.op with
  | apply f =>
    have hf : p.2.appliedName? = some f := by rw [Expr.appliedName?, hop]
    exact ⟨f, mem_freeNames.2 ⟨_, List.mem_map_of_mem hp, hf⟩, rfl⟩
  | table id =>
    rw [hop] at hdeclares
    obtain ⟨tb, htb, -⟩ := hdeclares
    rw [show c.tables = [] from htables] at htb
    cases htb
  | arrayRef id =>
    rw [hop] at hdeclares
    obtain ⟨a, ha, -⟩ := hdeclares
    rw [show c.arrays = [] from harrays] at ha
    cases ha
  | _ =>
    rw [hop] at hnamed
    cases hnamed

end Validation

namespace ValidTrace

/-- The bindings of the body, as terms. -/
def bindings (t : ValidTrace) : List (String × Term) :=
  named t.level (t.constants.map fun p => (p.1, .literal p.2)) ++
    named t.level (t.assignments.map fun p => (p.1, p.2.term (NodeId.smtName t.level)))

variable {t : ValidTrace} {c : Scope} {x : String}

section Literals

theorem literals_of_mem (h : (t.constants.map (·.1)).Nodup) {n : NodeId} {c : Literal}
    (hm : (n, c) ∈ t.constants) {text : String} (hc : c.smt t.rounding = .ok text) {e : SExpr}
    (he : Reads text [e]) : t.literals (NodeId.smtName t.level n) e = some c := by
  have hnodup : ((t.constants.map fun p => (NodeId.smtName t.level p.1, p.2)).map (·.1)).Nodup := by
    have hnames : ((t.constants.map (·.1)).map (NodeId.smtName t.level)).Nodup :=
      List.pairwise_map.2 (h.imp fun hne he => hne (NodeId.smtName_injective he))
    rw [List.map_map] at hnames ⊢
    exact hnames
  have hspelled : c.isSpelled t.rounding e = true := by
    simp only [Literal.isSpelled, hc, he.read, decide_true]
  rw [literals, Graph.lookup_of_mem hnodup (List.mem_map_of_mem hm)]
  exact if_pos hspelled

theorem vacant_of_ne (h : ∀ p ∈ t.constants, NodeId.smtName t.level p.1 ≠ x) :
    Vacant t.literals (some x) := by
  intro y hy e
  cases hy
  have hnone : (t.constants.map fun p => (NodeId.smtName t.level p.1, p.2)).lookup x = none := by
    refine Scope.lookup_eq_none fun hx => ?_
    rw [List.map_map] at hx
    obtain ⟨p, hp, hpx⟩ := List.mem_map.1 hx
    exact h p hp hpx
  rw [literals, hnone]
  rfl

/-- No literal is a `let`. -/
theorem literals_let (h : ∀ p ∈ t.constants, p.2.WellFormed) (x : String) (args : SExpr) :
    t.literals x (.cons (.atom "let") args) = none := by
  rw [literals, Option.filter_eq_none_iff]
  intro c hc
  have hmem : (x, c) ∈ t.constants.map fun p => (NodeId.smtName t.level p.1, p.2) := by
    obtain ⟨l, r, hlr, -⟩ := List.lookup_eq_some_iff.1 hc
    rw [hlr]
    simp
  obtain ⟨p, hp, hpx⟩ := List.mem_map.1 hmem
  cases hpx
  obtain ⟨text, htext, e, he, hne⟩ := Literal.isItem_smt (h p hp) t.rounding
  simp only [Literal.isSpelled, htext, he.read, decide_eq_true_eq]
  exact fun h => hne args (Option.some.inj h)

end Literals

section Texts

/-- Steps that succeed one by one succeed in a row. -/
theorem mapM_ok {α β γ ε : Type} {f : α → Except ε β} {g : α → γ} {R : β → γ → Prop} {xs : List α}
    (h : ∀ x ∈ xs, ∃ y, f x = .ok y ∧ R y (g x)) :
    ∃ ys, xs.mapM f = .ok ys ∧ List.Forall₂ R ys (xs.map g) := by
  induction xs with
  | nil => exact ⟨[], rfl, .nil⟩
  | cons x xs ih =>
    obtain ⟨y, hy, hr⟩ := h x List.mem_cons_self
    obtain ⟨ys, hys, hrs⟩ := ih fun x' hx' => h x' (List.mem_cons_of_mem _ hx')
    refine ⟨y :: ys, ?_, .cons hr hrs⟩
    rw [List.mapM_cons, hy, hys]
    rfl

theorem isName_smtName (level : Nat) (n : NodeId) : IsName (NodeId.smtName level n) :=
  ⟨NodeId.isWord_smtName level n, NodeId.binary?_smtName level n⟩

theorem IsTraceOf.constants_nodup (h : t.IsTraceOf c) : (t.constants.map (·.1)).Nodup := by
  rw [h.constants]
  have hinc : (c.constants.map (·.1)).Nodup := h.arena.constants_increasing.imp Nat.ne_of_lt
  exact hinc.sublist (List.filter_sublist.map _)

theorem IsTraceOf.mem_constants (h : t.IsTraceOf c) {p : NodeId × Literal} (hp : p ∈ t.constants) :
    p ∈ c.constants := by
  rw [h.constants] at hp
  exact List.mem_of_mem_filter hp

theorem IsTraceOf.constant_binds (h : t.IsTraceOf c) (hx : t.Expressible)
    {p : NodeId × Literal} (hp : p ∈ t.constants) :
    ∃ text, p.2.smt t.rounding = .ok text ∧
      BindsAs t.literals (NodeId.smtName t.level p.1, text)
        (NodeId.smtName t.level p.1, .literal p.2) := by
  obtain ⟨text, htext, e, he, -⟩ := Literal.isItem_smt (hx.literals p hp) t.rounding
  exact ⟨text, htext, rfl, NodeId.isWord_smtName _ _,
    .literal he (literals_of_mem h.constants_nodup hp htext he)⟩

theorem IsTraceOf.assignment_binds (h : t.IsTraceOf c) (hx : t.Expressible) {p : NodeId × Expr}
    (hp : p ∈ t.assignments) :
    BindsAs t.literals (NodeId.smtName t.level p.1, p.2.render (NodeId.smtName t.level))
      (NodeId.smtName t.level p.1, p.2.term (NodeId.smtName t.level)) := by
  refine ⟨rfl, NodeId.isWord_smtName _ _, Expr.readsAs_render (h.emittable p hp) hx.symbols
    (isName_smtName t.level) (vacant_of_ne fun q hq he => ?_)⟩
  have hconstant : p.1 ∈ c.constantIds := by
    rw [← NodeId.smtName_injective he]
    exact List.mem_map_of_mem (h.mem_constants hq)
  rw [h.assignments] at hp
  exact h.arena.disjoint.2 p.1 hconstant (List.mem_map_of_mem hp)

/-- The definition whose constants are bound like this. -/
def definition (t : ValidTrace) (bs : List (String × String)) : Definition :=
  ⟨t.freeNames, t.params.map fun p => (NodeId.smtName t.level p.1, p.2),
    bs ++ t.assignments.map fun p =>
      (NodeId.smtName t.level p.1, p.2.render (NodeId.smtName t.level)),
    NodeId.smtName t.level t.output⟩

theorem ofTrace_eq (t : ValidTrace) :
    Definition.ofTrace t =
      (t.constants.mapM fun p => do
        let text ← p.2.smt t.rounding
        pure (NodeId.smtName t.level p.1, text)) >>= fun bs => pure (t.definition bs) := rfl

/-- The definition's bindings read as those of the trace. -/
theorem IsTraceOf.ofTrace (h : t.IsTraceOf c) (hx : t.Expressible) :
    ∃ bs, Definition.ofTrace t = .ok (t.definition bs) ∧
      List.Forall₂ (BindsAs t.literals) (t.definition bs).bindings t.bindings := by
  have hconstants : ∀ p ∈ t.constants, ∃ b,
      (do let text ← p.2.smt t.rounding; pure (NodeId.smtName t.level p.1, text)) =
          (.ok b : Except Violation (String × String)) ∧
        BindsAs t.literals b (NodeId.smtName t.level p.1, .literal p.2) := by
    intro p hp
    obtain ⟨text, htext, hb⟩ := h.constant_binds hx hp
    exact ⟨_, by rw [htext]; rfl, hb⟩
  obtain ⟨bs, hbs, hread⟩ := mapM_ok hconstants
  have hassignments : List.Forall₂ (BindsAs t.literals)
      (t.assignments.map fun p => (NodeId.smtName t.level p.1, p.2.render (NodeId.smtName t.level)))
      (t.assignments.map fun p =>
        (NodeId.smtName t.level p.1, p.2.term (NodeId.smtName t.level))) := by
    rw [List.forall₂_map_left_iff, List.forall₂_map_right_iff, List.forall₂_same]
    exact fun p hp => h.assignment_binds hx hp
  refine ⟨bs, ?_, ?_⟩
  · rw [ofTrace_eq, hbs]
    rfl
  · rw [bindings, named, named, List.map_map, List.map_map]
    exact List.rel_append hread hassignments

end Texts

section Nodes

variable (h : t.IsTraceOf c) {n : Nat}
include h

/-- What is no target is an input, a truth value or among the constants. -/
theorem IsTraceOf.node_cases (hn : n < c.nodeCount) (ht : n ∉ t.assignments.map (·.1)) :
    n ∈ c.inputIds ∨ n = 0 ∨ n = 1 ∨ n ∈ t.constants.map (·.1) := by
  rcases h.arena.node_cases hn with hi | ⟨l, hl⟩ | ⟨e, he⟩
  · exact .inl hi
  · by_cases h0 : n = 0
    · exact .inr (.inl h0)
    by_cases h1 : n = 1
    · exact .inr (.inr (.inl h1))
    refine .inr (.inr (.inr ?_))
    have hkept : NodeId.isTruthValue n = false := by
      simp [NodeId.isTruthValue, NodeId.falsity, NodeId.truth, h0, h1]
    rw [h.constants]
    exact List.mem_map_of_mem (List.mem_filter.2 ⟨hl, by simp [hkept]⟩)
  · rw [h.assignments] at ht
    exact absurd (List.mem_map_of_mem he) ht

theorem IsTraceOf.targets_increasing : (t.assignments.map (·.1)).Pairwise (· < ·) := by
  rw [h.assignments]
  exact h.arena.targets_increasing

theorem IsTraceOf.target_lt : ∀ p ∈ t.assignments, p.1 < c.nodeCount := by
  rw [h.assignments]
  exact fun p hp => h.arena.target_lt (List.mem_map_of_mem hp)

theorem IsTraceOf.args_lt : ∀ p ∈ t.assignments, ∀ n ∈ p.2.args, n < p.1 := by
  rw [h.assignments]
  exact h.arena.args_lt

/-- The parameters with the values of the inputs. -/
def inputEnv {U : Type} (t : ValidTrace) (c : Scope) (ρ : NodeId → Datum U) : Term.Env U :=
  c.inputs.map fun i => (NodeId.smtName t.level i.node, some (ρ i.node))

section Values

variable {U : Type} {I : Interpretation U} {ρ : NodeId → Datum U}

theorem IsTraceOf.knows_inputs (hx : t.Expressible) :
    Knows I t.level t.freeNames (c.graph.value I ρ) (inputEnv t c ρ)
      fun m => m ∈ c.inputIds ∨ m = 0 ∨ m = 1 := by
  have hnone {y : String} (hy : ∀ i ∈ c.inputs, y ≠ NodeId.smtName t.level i.node) :
      (inputEnv t c ρ).lookup y = none := by
    refine Scope.lookup_eq_none fun hmem => ?_
    rw [inputEnv, List.map_map] at hmem
    obtain ⟨i, hi, he⟩ := List.mem_map.1 hmem
    exact hy i hi he.symm
  have htruth {b : Bool} {m : Nat} (hm : (m, .bool b) ∈ c.constants) :
      ∀ i ∈ c.inputs, NodeId.smtName t.level m ≠ NodeId.smtName t.level i.node := by
    intro i hi he
    have hinput : i.node ∈ c.inputIds := List.mem_map_of_mem hi
    have hconstant : m ∈ c.constantIds := List.mem_map_of_mem hm
    rw [NodeId.smtName_injective he] at hconstant
    exact (h.arena.disjoint.1 _ hinput).1 hconstant
  have hfalsity : (0, .bool false) ∈ c.constants := h.arena.falsity
  have htruthValue : (1, .bool true) ∈ c.constants := h.arena.truth
  refine ⟨fun m hm => ?_, fun f hf => hnone fun i _ => hx.fresh f hf i.node⟩
  rcases hm with hm | rfl | rfl
  · obtain ⟨i, hi, rfl⟩ := List.mem_map.1 hm
    have hnodup : ((inputEnv t c ρ).map (·.1)).Nodup := by
      rw [inputEnv, List.map_map]
      have hinc := h.arena.inputs_increasing
      rw [Scope.inputIds, List.pairwise_map] at hinc
      exact List.pairwise_map.2
        (hinc.imp fun hlt he => Nat.ne_of_lt hlt (NodeId.smtName_injective he))
    rw [Term.eval, Graph.lookup_of_mem hnodup (List.mem_map_of_mem hi), h.arena.value_input hm]
  · rw [Term.eval, hnone (htruth hfalsity), h.arena.value_constant hfalsity]
    rfl
  · rw [Term.eval, hnone (htruth htruthValue), h.arena.value_constant htruthValue]
    rfl

/-- Past all bindings the name of each node has the node's value. -/
theorem IsTraceOf.knows (hx : t.Expressible) :
    Knows I t.level t.freeNames (c.graph.value I ρ) (extend I (inputEnv t c ρ) t.bindings)
      fun m => m < c.nodeCount := by
  have hconstants := (h.knows_inputs (I := I) (ρ := ρ) hx).constants hx.fresh
    fun p hp => h.arena.value_constant (h.mem_constants hp)
  rw [bindings, extend, List.foldl_append]
  refine Knows.assignments (hconstants.mono fun m hm => ?_) hx.fresh hx.foreign
    h.targets_increasing h.target_lt h.args_lt h.emittable ?_
  · have hcases := h.node_cases hm.1 hm.2
    tauto
  · intro p hp
    rw [h.assignments] at hp
    exact h.arena.value_target hp

theorem IsTraceOf.eval_body (hx : t.Expressible) :
    (bodyTerm t.bindings (NodeId.smtName t.level t.output)).eval I (inputEnv t c ρ) =
      c.graph.value I ρ t.output := by
  have hchain : (chain t.bindings (NodeId.smtName t.level t.output)).eval I (inputEnv t c ρ) =
      c.graph.value I ρ t.output := by
    rw [eval_chain]
    exact (h.knows hx).value t.output h.output
  rcases bodyTerm_cases t.bindings (NodeId.smtName t.level t.output) with hbody | hbody
  · rw [hbody]
    exact hchain
  · rw [hbody] at hchain
    exact (eval_name_self _ _ _).symm.trans hchain

end Values

theorem IsTraceOf.closed_body :
    (bodyTerm t.bindings (NodeId.smtName t.level t.output)).ClosedOver
      (c.inputs.map fun i => NodeId.smtName t.level i.node) t.freeNames := by
  have hchain : (chain t.bindings (NodeId.smtName t.level t.output)).ClosedOver
      (c.inputs.map fun i => NodeId.smtName t.level i.node) t.freeNames := by
    refine closed_constants (closed_assignments (fun m (hm : m < c.nodeCount) hmem => ?_)
      h.targets_increasing h.target_lt h.args_lt h.emittable h.output)
    rcases h.node_cases hm hmem with hi | rfl | rfl | hconst
    · obtain ⟨i, hinput, rfl⟩ := List.mem_map.1 hi
      exact .inl (List.mem_append_right _ (List.mem_map_of_mem hinput))
    · exact .inr (by rw [NodeId.smtName_zero]; decide)
    · exact .inr (by rw [NodeId.smtName_one]; decide)
    · obtain ⟨p, hp, rfl⟩ := List.mem_map.1 hconst
      exact .inl (List.mem_append_left _ (List.mem_reverse.2 (List.mem_map_of_mem hp)))
  rcases bodyTerm_cases t.bindings (NodeId.smtName t.level t.output) with hbody | hbody
  · rw [hbody]
    exact hchain
  · rw [hbody] at hchain
    exact hchain.1

end Nodes

/-- At each indentation the body reads back as the term of the trace's bindings. -/
theorem IsTraceOf.readBody (hx : t.Expressible) {bs : List (String × String)}
    (hbs : List.Forall₂ (BindsAs t.literals) (t.definition bs).bindings t.bindings)
    (indent : Nat) :
    t.readBody? ((t.definition bs).body indent) =
      some (bodyTerm t.bindings (NodeId.smtName t.level t.output)) := by
  have hnil (hempty : (t.definition bs).bindings = []) :
      Vacant t.literals (some (t.definition bs).output) := by
    refine vacant_of_ne fun p hp => ?_
    rw [hempty, List.forall₂_nil_left_iff, bindings, List.append_eq_nil_iff, named, List.map_map,
      List.map_eq_nil_iff] at hbs
    rw [hbs.1] at hp
    cases hp
  obtain ⟨e, he, hterm⟩ := readsAs_body hbs (isName_smtName t.level t.output)
    (literals_let hx.literals _) hnil indent
  rw [readBody?, he.read]
  exact hterm

end ValidTrace

/-- Lowering preserves meaning: whatever the functions and the inputs are, the body has the value
that the trace's graph gives its output. -/
theorem World.body_preserves_value {w : World} (hw : w.Reachable) {c : Scope} (hc : c ∈ w.scopes)
    {context : String} {expected : Kind} {t : ValidTrace}
    (ht : c.finish.validate context expected = .ok t) (hx : t.Expressible) :
    ∃ d names, Definition.ofTrace t = .ok d ∧
      (SExpr.read d.paramClause).bind SExpr.parameters? = some names ∧
      ∀ indent, ∃ e, t.readBody? (d.body indent) = some e ∧ e.ClosedOver names d.freeNames ∧
        ∀ (U : Type) (I : Interpretation U) (ρ : NodeId → Datum U),
          e.eval I (names.zip (c.inputs.map fun i => some (ρ i.node))) =
            c.graph.value I ρ t.output := by
  have htrace := World.isTraceOf hw hc ht
  obtain ⟨bs, hd, hbs⟩ := htrace.ofTrace hx
  have hnames : (t.definition bs).params.map (·.1) =
      c.inputs.map fun i => NodeId.smtName t.level i.node := by
    rw [ValidTrace.definition, List.map_map, htrace.params, List.map_map]
    rfl
  refine ⟨t.definition bs, _, hd, Definition.read_paramClause fun p hp => ?_, fun indent =>
    ⟨_, ValidTrace.IsTraceOf.readBody hx hbs indent, ?_, fun U I ρ => ?_⟩⟩
  · obtain ⟨q, hq, rfl⟩ := List.mem_map.1 hp
    exact ⟨NodeId.isWord_smtName _ _, hx.sorts q hq⟩
  · rw [hnames]
    exact htrace.closed_body
  · rw [hnames, List.zip_map']
    exact htrace.eval_body hx

namespace World

/-- In a fork, a function of the input is added to a constant. -/
def callInFork : World :=
  let g : Value := .symbolic 3 (.unsigned 8) 1
  (((((empty.next (.start {})).next (.fork 0 .lambda)).next
    (.call 1 (.input .universal "x" (.unsigned 8)))).next
    (.call 1 (.apply "g" (.unsigned 8) [.symbolic 2 (.unsigned 8) 1]))).next
    (.call 1 (.primitive (.add g (.concrete (.word false 8 5)))))).next
    (.call 1 (.addOutput (.symbolic 5 (.unsigned 8) 1)))

def callScope : Scope := callInFork.scopes.getD 1 default

def callTrace : ValidTrace := callScope.finish.valid (.unsigned 8) 5

theorem callInFork_reachable : callInFork.Reachable := by
  have hfork : ((empty.next (.start {})).next (.fork 0 .lambda)).Reachable :=
    .next (.next .empty (by trivial)) (by trivial)
  have hinput := hfork.next (e := .call 1 (.input .universal "x" (.unsigned 8)))
    (by simp [Supplies, Operation.operands])
  have happly := hinput.next
    (e := .call 1 (.apply "g" (.unsigned 8) [.symbolic 2 (.unsigned 8) 1])) (by
      intro v hv
      rw [List.mem_singleton.1 hv]
      exact .inr (by decide))
  have hadd := happly.next (e := .call 1
    (.primitive (.add (.symbolic 3 (.unsigned 8) 1) (.concrete (.word false 8 5))))) (by
      intro v hv
      rcases List.mem_cons.1 hv with rfl | hv
      · exact .inr (by decide)
      · rw [List.mem_singleton.1 hv]
        exact .inl rfl)
  exact hadd.next (e := .call 1 (.addOutput (.symbolic 5 (.unsigned 8) 1))) (by
    intro v hv
    rw [List.mem_singleton.1 hv]
    exact .inr (by decide))

theorem callTrace_expressible : callTrace.Expressible := by
  refine ⟨?_, ?_, ?_, ?_, ?_⟩
  · have hc : callTrace.constants = [(4, .word false 8 5)] := by decide
    rw [hc]
    intro p hp
    rw [List.mem_singleton.1 hp]
    exact (by decide : wrap false 8 5 = 5)
  · have hp : callTrace.params = [(2, .unsigned 8)] := by decide
    rw [hp]
    intro p hp
    rw [List.mem_singleton.1 hp]
    trivial
  all_goals
    have hf : callTrace.freeNames = ["g"] := by decide
    rw [hf]
    intro f hf
    rw [List.mem_singleton.1 hf]
  · exact ⟨by decide, by decide, by decide, by decide⟩
  · decide
  · intro n hn
    have hhead := congrArg (fun s : String => s.toList.head?) hn
    simp only [NodeId.head_smtName] at hhead
    split_ifs at hhead <;> simp at hhead

theorem body_preserves_value_call :
    ∃ d names, Definition.ofTrace callTrace = .ok d ∧
      (SExpr.read d.paramClause).bind SExpr.parameters? = some names ∧
      ∀ indent, ∃ e, callTrace.readBody? (d.body indent) = some e ∧
        e.ClosedOver names d.freeNames ∧
        ∀ (U : Type) (I : Interpretation U) (ρ : NodeId → Datum U),
          e.eval I (names.zip (callScope.inputs.map fun i => some (ρ i.node))) =
            callScope.graph.value I ρ callTrace.output :=
  have hc : callInFork.scopes[1]? = some callScope := rfl
  have ht : callScope.finish.validate "lambda" (.unsigned 8) = .ok callTrace := rfl
  body_preserves_value callInFork_reachable (List.mem_of_getElem? hc) ht callTrace_expressible

example :
    (Definition.ofTrace callTrace).map (·.body 2) = .ok
      ("  (let ((l1_s4 #x05))\n  (let ((l1_s3 (g l1_s2)))\n" ++
        "  (let ((l1_s5 (bvadd l1_s3 l1_s4)))\n  l1_s5)))") := by
  rfl

end World

end SmtLowering
