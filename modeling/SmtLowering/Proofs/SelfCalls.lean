import SmtLowering.Proofs.Foreign
import SmtLowering.Proofs.Lasting
import SmtLowering.Proofs.TypedRuns

/-!
# Self-calls

The body of a definition may apply the name that is being defined. Nodes are issued under their
kinds and every application of a name is at its signature (`Discipline.kinded`), so if the name's
signature is that of the definition, all self-calls are at it. It is some other function's signature
only if the computation itself makes the name callable (`Target.self_calls`).
-/

namespace SmtLowering

namespace Discipline

/-- Nodes are issued under their kinds, and so are applications under their names' signatures. -/
def kinded : Discipline where
  literal _ := True
  node s n k := s.kindOf? n = some k
  expr σ s e k :=
    match e.op with
    | .apply name => ∃ ks, s.HaveKinds e.args ks ∧ σ name = some ⟨ks, k⟩
    | .table _ => ∃ index, s.HaveKinds e.args [index, k]
    | .arrayRef _ => k = e.domain
    | op => op.resultKind? e.domain = some k

variable {σ σ' : Signatures} {F : Value → Prop} {s t : Scope} {e : Expr} {k k' : Kind}

theorem kinded_unique (h : kinded.expr σ s e k) (h' : kinded.expr σ s e k') : k = k' := by
  obtain ⟨op, domain, args⟩ := e
  cases op with
  | apply name =>
    obtain ⟨ks, hks, hsig⟩ := h
    obtain ⟨ls, hls, hsig'⟩ := h'
    cases hsig.symm.trans hsig'
    rfl
  | table id =>
    obtain ⟨i, hi⟩ := h
    obtain ⟨j, hj⟩ := h'
    cases hi.unique hj
    rfl
  | arrayRef id => exact Eq.trans h (Eq.symm h')
  | _ => exact Option.some.inj (Eq.trans (Eq.symm h) h')

theorem kinded_mono (hσ : ∀ name sig, σ name = some sig → σ' name = some sig)
    (h : kinded.expr σ s e k) : kinded.expr σ' s e k := by
  obtain ⟨op, domain, args⟩ := e
  cases op with
  | apply name => exact h.imp fun ks hks => ⟨hks.1, hσ _ _ hks.2⟩
  | _ => exact h

theorem kinded_grows (hg : s.Grows t) (h : kinded.expr σ s e k) : kinded.expr σ t e k := by
  have hkinds {ks : List Kind} (hks : s.HaveKinds e.args ks) : t.HaveKinds e.args ks :=
    hks.imp fun _ _ => hg.kindOf?_of_some
  obtain ⟨op, domain, args⟩ := e
  cases op with
  | apply name => exact h.imp fun ks hks => ⟨hkinds hks.1, hks.2⟩
  | table id => exact h.imp fun i hi => hkinds hi
  | _ => exact h

/-- Where the kind follows from the operator and the domain, that is the rule. -/
theorem kinded_of_resultKind? (h : e.op.resultKind? e.domain = some k) : kinded.expr σ s e k := by
  obtain ⟨op, domain, args⟩ := e
  cases op with
  | apply | table | arrayRef => cases h
  | _ => exact h

theorem kinded_allows {p : Plan} {vs : List Value} (hw : p.Within vs) (hp : p.Regular)
    (hv : ∀ v ∈ vs, kinded.Holds F s v) : kinded.Allows σ F s p := by
  cases hp with
  | give v =>
    rcases hw with hw | hw
    · cases v with
      | concrete c => trivial
      | symbolic n k number => cases hw
    · exact hv v hw
  | kindMismatch | invalidOperand | violation => trivial
  | node us h => exact ⟨fun v hm => hv v (hw.1 hm), fun _ _ _ _ _ => kinded_of_resultKind? h⟩

/-- A rule for the values' kinds is one for those of their nodes. -/
theorem kinded_allowsNode {op : Op} {domain k : Kind} {vs : List Value}
    (hv : ∀ v ∈ vs, kinded.Holds F s v)
    (hr : ∀ t ns, t.HaveKinds ns (vs.map Value.kind) → kinded.expr σ t ⟨op, domain, ns⟩ k) :
    kinded.AllowsNode σ F s op domain vs k :=
  ⟨hv, fun t ns hg ht hns => hr t ns (haveKinds_of_nodes id hg ht hv hns)⟩

theorem kinded_lawful (σ : Signatures) (F : Value → Prop) : kinded.Lawful σ F where
  bool _ := trivial
  node_lt h := (List.getElem?_eq_some_iff.1 h).1
  node_grows hg h := hg.kindOf?_of_some h
  expr_grows hg h := kinded_grows hg h
  issued h := h
  reissued h hn he := by
    obtain ⟨k, hk, he'⟩ := h.exprs _ hn
    exact kinded_unique he' he ▸ hk
  primitive p _ hv := kinded_allows p.plan_within p.plan_regular hv
  apply _ hv hσ := kinded_allowsNode hv fun _ _ hns => ⟨_, hns, hσ⟩
  table _ hi hf _ := kinded_allowsNode (by simp [hi, hf]) fun _ _ hns => ⟨_, hns⟩
  array _ _ := rfl

theorem Conforms.mono (h : kinded.Conforms σ s)
    (hσ : ∀ name sig, σ name = some sig → σ' name = some sig) : kinded.Conforms σ' s where
  arena := h.arena
  literals := h.literals
  exprs p hp := (h.exprs p hp).imp fun _ hk => ⟨hk.1, kinded_mono hσ hk.2⟩

end Discipline

namespace Computation

/-- The values that the computation uses in its scope are literals, values of `has`, or results of
its operations. -/
def Supplied (has : Value → Prop) : Computation → Prop
  | result v => v.isConcrete ∨ has v
  | abort _ => True
  | operate o next =>
    (∀ v ∈ o.operands, v.isConcrete ∨ has v) ∧
      ∀ r, (next r).Supplied fun v => has v ∨ r = .ok (some v)
  | inspect next => ∀ w, (next w).Supplied has
  | lambda _ _ next => ∀ r, (next r).Supplied has
  | function _ _ _ next => ∀ r, (next r).Supplied has
  | constraint _ _ next => ∀ r, (next r).Supplied has

theorem supplied_lower {has : Value → Prop} {t : Target} {body : Computation}
    {next : Except LowerError t.Result → Computation} :
    (lower t body next).Supplied has ↔ ∀ r, (next r).Supplied has := by
  cases t <;> exact Iff.rfl

end Computation

section Runs

open Discipline (kinded kinded_lawful)

variable {has : Value → Prop} {w : Workspace}

/-- The scope has the kinds, and so have the values at hand if they are its own. -/
structure Workspace.Kinded (has : Value → Prop) (w : Workspace) : Prop where
  conforms : kinded.Conforms w.signature? w.scope
  holds : ∀ v, has v → kinded.Holds (fun _ => True) w.scope v

theorem Workspace.Kinded.operand (h : w.Kinded has) {v : Value} (hv : v.isConcrete ∨ has v) :
    kinded.Holds (fun _ => True) w.scope v := by
  rcases hv with hv | hv
  · cases v with
    | concrete c => trivial
    | symbolic n k number => cases hv
  · exact h.holds v hv

/-- In a session that lost no signature the scope still has the kinds. -/
theorem Workspace.Kinded.resume (h : w.Kinded has) {s : Session}
    (hs : w.Remembers (fun _ => True) (w.resume s)) : (w.resume s).Kinded has where
  conforms := h.conforms.mono fun _ _ hsig => hs.signature? hsig
  holds := h.holds

theorem Operation.run_kinded {o : Operation} (ho : o.keepsSignatures = true) (hw : w.InRange)
    (hk : w.Kinded has) (hv : ∀ v ∈ o.operands, v.isConcrete ∨ has v) :
    (outcome o.run w).2.Kinded fun v => has v ∨ (outcome o.run w).1 = .ok (some v) := by
  have hremembers := o.run_remembers (N := fun _ => True) ho hw
  have hb := (o.scopeStep_grows w).branches
  rw [outcome_run] at hremembers ⊢
  have hconforms := hk.conforms.mono fun _ _ hsig => hremembers.signature? hsig
  obtain ⟨hg, hc, hresult⟩ := (kinded_lawful _ _).scopeStep_keeps hconforms o
    (fun v hm => hk.operand (hv v hm)) fun name result args ha hagrees => by
      subst ha
      exact signature?_apply ⟨hw.uninterpreted, hw.userFunctions⟩ hb hagrees
  refine ⟨hc, fun v hv => ?_⟩
  rcases hv with hv | hv
  · exact (kinded_lawful w.signature? _).holds_grows hg (hk.holds v hv)
  · exact hresult _ hv v rfl

namespace Computation

/-- After a computation the scope has the kinds, and the result has its kind. -/
theorem run_kinded {c : Computation} (hc : c.Uses (·.keepsSignatures = true))
    (hs : c.Supplied has) (hw : w.InRange) (hk : w.Kinded has) :
    (outcome c.run w).2.Kinded fun v => (outcome c.run w).1 = .ok v := by
  induction c using induction_lower generalizing w has with
  | result v =>
    refine ⟨hk.conforms, fun u hu => ?_⟩
    cases hu
    exact hk.operand hs
  | abort e => exact ⟨hk.conforms, fun u hu => by cases hu⟩
  | operate o next ih =>
    have hstep := o.run_kinded hc.1 hw hk hs.1
    have hrange := (o.run_writes w).inRange_after hw
    rw [run, outcome_bind, Work.outcome_attempt]
    rcases ho : outcome o.run w with ⟨(e | v) | a, w'⟩ <;> rw [ho] at hstep hrange
    · exact ih (.error e) (hc.2 _) (hs.2 _) hrange ⟨hstep.conforms, fun v hv => hstep.holds v
        (hv.imp_right fun h => by cases h)⟩
    · exact ⟨hstep.conforms, fun u hu => by cases hu⟩
    · exact ih (.ok a) (hc.2 _) (hs.2 _) hrange ⟨hstep.conforms, fun v hv => hstep.holds v
        (hv.imp_right fun h => by cases h; rfl)⟩
  | inspect next ih => exact ih w (hc w) (hs w) hw hk
  | lower t body next ihb ih =>
    rw [uses_lower] at hc
    rw [supplied_lower] at hs
    obtain ⟨hwrites, hremembers⟩ := relates_remembers.lower
      (fun w => relates_remembers.run body hc.1 (fun _ _ => trivial) w) t (fun _ _ => trivial) w
    have hk' := hk.resume (hremembers hw)
    have hrange := hwrites.inRange_after hw
    rw [run_lower, outcome_bind, Lowering.outcome_nested]
    rcases hl : (t.lower w.scope body.run).run.run w.session with ⟨(e | v) | a, s⟩ <;>
      rw [hl] at hk' hrange
    · exact ih (.error e) (hc.2 _) (hs _) hrange hk'
    · exact ⟨hk'.conforms, fun u hu => by cases hu⟩
    · exact ih (.ok a) (hc.2 _) (hs _) hrange hk'

theorem replayed_kinded {c : Computation} (hc : c.Uses (·.keepsSignatures = true))
    (hs : c.Supplied has) (hw : w.InRange) (hk : w.Kinded has) :
    kinded.Conforms (outcome (Lowering.replayed c.run) w).2.signature?
      (outcome (Lowering.replayed c.run) w).2.scope := by
  have hrun := run_kinded hc hs hw hk
  have hrange := (relates_writes.run c c.uses_true w).inRange_after hw
  rw [Lowering.replayed, outcome_bind]
  rcases hr : outcome c.run w with ⟨e | v, w'⟩ <;> rw [hr] at hrun hrange
  · exact hrun.conforms
  · simp only [Work.addOutput_workspace]
    refine (Operation.run_kinded (o := .addOutput v) rfl hrange hrun fun u hu => ?_).conforms
    obtain rfl := List.mem_singleton.1 hu
    exact .inr rfl

end Computation

end Runs

/-- The scope's applications of the function are at the signature. -/
def Scope.AppliesAt (s : Scope) (f : String) (sig : Signature) : Prop :=
  ∀ p ∈ s.assignments, p.2.appliedName? = some f →
    s.HaveKinds p.2.args sig.args ∧ s.kindOf? p.1 = some sig.result

namespace Target

variable {w : Workspace} {name : String} {k : Kind} {c : Computation} {d : Declaration}
  {s : Session}

theorem appliesAt_of_conforms {u : Workspace}
    (h : Discipline.kinded.Conforms u.signature? u.scope) {f : String} {sig : Signature}
    (hsig : ∀ sig', u.signature? f = some sig' → sig' = sig) : u.scope.AppliesAt f sig := by
  intro p hp hf
  obtain ⟨k, hk, he⟩ := h.exprs p hp
  have hop : p.2.op = .apply f := by
    unfold Expr.appliedName? at hf
    split at hf
    · next g hg => rw [hg, Option.some.inj hf]
    · cases hf
  simp only [Discipline.kinded, hop] at he
  obtain ⟨ks, hks, hσ⟩ := he
  obtain rfl := hsig _ hσ
  exact ⟨hks, hk⟩

/-- A lowering starts with the kinds, whatever values there are of other scopes. -/
theorem start_kinded {t : Target} {child : Scope} {s₀ : Session}
    (h : t.start w = .ok (child, s₀)) :
    Workspace.Kinded (·.Foreign child.number) ⟨s₀, child⟩ := by
  have hblank := Session.fork_blank (start_eq_ok h).1
  refine ⟨?_, fun v hv => ?_⟩
  · rw [show (⟨s₀, child⟩ : Workspace).scope = child from rfl, hblank]
    exact Discipline.conforms_blank (Discipline.kinded_lawful _ fun _ => True) _ _ _ _
  · cases v with
    | concrete c => trivial
    | symbolic n k owner => exact (Discipline.holds_other hv).2 trivial

/-- The applications of the name that is being defined are at the definition's signature, or the
computation has made the name callable itself and they are at the signature of that. -/
theorem appliesAt_self {u : Workspace} {v : ValidTrace} {child : Scope} {s₀ : Session}
    (hw : w.InRange) (ha : (function name k).start w = .ok (child, s₀))
    (hu : (outcome (Lowering.replayed c.run) ⟨s₀, child⟩).2 = u)
    (he : (function name k).emit (w.resume u.session) v = .ok d)
    (hc : c.Uses (·.keepsSignatures = true)) (hs : c.Supplied (·.Foreign child.number)) :
    u.scope.AppliesAt name ⟨v.params.map Prod.snd, k⟩ ∨
      c.Lowers name ∧ ∃ sig, u.userFunctions.find? name = some sig ∧
        u.uninterpreted.find? name = none ∧ u.scope.AppliesAt name sig := by
  obtain ⟨hf, hnone⟩ := start_eq_ok ha
  have hchild := World.fork_inRange hw hf
  obtain ⟨⟨hbu, -⟩, -, hfuns, -⟩ := Session.fork_reads hw hf
  have hrelates := Computation.relates_remembers (N := (c.Lowers ·))
  have hconforms := Computation.replayed_kinded hc hs hchild (start_kinded ha)
  obtain ⟨hwrites, hremembers⟩ :=
    hrelates.toCarries.replayed (hrelates.run c hc (fun _ h => h) ⟨s₀, child⟩)
  rw [hu] at hconforms hwrites hremembers
  have hremembers := hremembers hchild
  obtain ⟨-, hsig⟩ := signature_of_emit he
  have hun : (w.resume u.session).uninterpreted = u.uninterpreted := by
    have hb : u.scope.branches = child.branches := hwrites.branches
    simp only [Workspace.uninterpreted, Workspace.resume, hb, hbu]
  have hfree : (Workspace.userFunctions ⟨s₀, child⟩).find? name = none :=
    (congrArg (·.find? name) hfuns).trans (hnone name rfl)
  rw [hun] at hsig
  rcases hcall : u.userFunctions.find? name with _ | sig
  · -- the applications are at the signature that the last check was made of
    refine .inl (appliesAt_of_conforms hconforms fun sig' hs => hsig sig' ?_)
    rw [Workspace.signature?, hcall, Option.none_or] at hs
    exact hs
  · have happlies : u.scope.AppliesAt name sig :=
      appliesAt_of_conforms hconforms fun sig' hs => by
        rw [Workspace.signature?, hcall, Option.some_or] at hs
        exact (Option.some.inj hs).symm
    rcases hused : u.uninterpreted.find? name with _ | used
    · have hlowers := (hremembers.new name hfree).resolve_left (by simp [hcall])
      exact .inr ⟨hlowers, sig, rfl, rfl, happlies⟩
    · have hagrees : Workspace.Agrees ⟨s₀, child⟩ name := fun _ _ hs => by
        cases hfree.symm.trans hs
      rw [← hsig used hused, ← hremembers.agrees name hagrees sig used hcall hused]
      exact .inl happlies

/-- A definition is what the computation leaves in a fork. It is recursive exactly if that applies
the name, which is no free name then. Unless the computation registers definitions on its own or
forgets names, the applications are at the definition's signature; or it has lowered a function of
the same name, which is callable in the fork, and they are at the signature of that one. -/
theorem self_calls (hw : w.InRange)
    (h : ((function name k).lower w.scope c.run).run.run w.session = (.ok d, s)) :
    ∃ child s₀ u v, (function name k).start w = .ok (child, s₀) ∧
      (outcome (Lowering.replayed c.run) ⟨s₀, child⟩).2 = u ∧
      u.scope.finish.validate (function name k).context k = .ok v ∧ v.declaration name = .ok d ∧
      (d.recursive = true ↔ v.Applies name) ∧ name ∉ d.definition.freeNames ∧ d.result = k ∧
      (c.Uses (·.keepsSignatures = true) → c.Supplied (·.Foreign child.number) →
        u.scope.AppliesAt name d.signature ∨
          c.Lowers name ∧ ∃ sig, u.userFunctions.find? name = some sig ∧
            u.uninterpreted.find? name = none ∧ u.scope.AppliesAt name sig) := by
  obtain ⟨child, s₀, v, ha, hv, he⟩ := lower_ok h
  obtain ⟨hd, -⟩ := signature_of_emit he
  obtain ⟨-, hsig⟩ := signature_of_declaration hd
  obtain ⟨hrec, hfree⟩ := Declaration.recursive_iff (ValidTrace.namesFree_of_validate hv) hd
  have hk : v.outputKind = k := by
    obtain ⟨-, -, out, -, rfl⟩ := Trace.validate_ok hv
    rfl
  rw [hk] at hsig
  refine ⟨child, s₀, _, v, ha, rfl, hv, hd, hrec, hfree, congrArg Signature.result hsig,
    fun hc hs => ?_⟩
  rw [hsig]
  exact appliesAt_self hw ha rfl he hc hs

section Sample

/-- The value that a step gave, or another one. -/
def given (r : Except ValueError (Option Value)) (v : Value) : Value := r.toOption.join.getD v

/-- Applies a function to an input. -/
def callOnInput (f : String) : Computation :=
  .operate (.input .universal "x" .int) fun x =>
    .operate (.apply f .int [given x (.bool false)]) fun r => .result (given r (.bool false))

theorem given_supplied (r : Except ValueError (Option Value)) :
    (given r (.bool false)).isConcrete = true ∨ r = .ok (some (given r (.bool false))) := by
  rcases r with e | _ | v
  · exact .inl rfl
  · exact .inl rfl
  · exact .inr rfl

theorem callOnInput_supplied (f : String) (has : Value → Prop) : (callOnInput f).Supplied has := by
  refine ⟨by simp [Operation.operands], fun x => ⟨fun v hv => ?_, fun r => ?_⟩⟩
  · obtain rfl := List.mem_singleton.1 hv
    exact (given_supplied x).imp_right .inr
  · exact (given_supplied r).imp_right .inr

/-- A body that applies its own name to its parameter. -/
theorem self_calls_recursion :
    ∃ d s u, ((function "f" .int).lower (Workspace.new {}).scope (callOnInput "f").run).run.run
        (Workspace.new {}).session = (.ok d, s) ∧
      d.recursive = true ∧ "f" ∉ d.definition.freeNames ∧
      Scope.AppliesAt u "f" ⟨[.int], .int⟩ ∧ (3, ⟨.apply "f", .int, [2]⟩) ∈ u.assignments := by
  have hw : (Workspace.new {}).InRange := World.start_inRange {} _ (List.mem_singleton.2 rfl)
  obtain ⟨d, s, h, hd⟩ : ∃ d s, ((function "f" .int).lower (Workspace.new {}).scope
      (callOnInput "f").run).run.run (Workspace.new {}).session = (.ok d, s) ∧
        d.signature = ⟨[.int], .int⟩ := ⟨_, _, rfl, rfl⟩
  obtain ⟨child, s₀, u, v, ha, hu, hv, -, hrec, hfree, -, happlies⟩ := self_calls hw h
  cases ha
  have hmem : (3, ⟨.apply "f", .int, [2]⟩) ∈ u.scope.assignments := by
    rw [← hu]
    decide +kernel
  have hrecursive : v.Applies "f" :=
    ⟨_, by rwa [ValidTrace.assignments_of_validate hv], rfl⟩
  have huses : (callOnInput "f").Uses (·.keepsSignatures = true) :=
    ⟨rfl, fun _ => ⟨rfl, fun _ => trivial⟩⟩
  have hlowers : ¬(callOnInput "f").Lowers "f" := fun ⟨_, _, h⟩ => h
  have hat := (happlies huses (callOnInput_supplied "f" _)).resolve_right fun h => hlowers h.1
  exact ⟨d, s, u.scope, h, hrec.2 hrecursive, hfree, hd ▸ hat, hmem⟩

/-- Defines its own name, as a truth value, and applies that. -/
def shadowed : Computation :=
  .function "f" .bool (.result (.bool true)) fun _ =>
    .operate (.apply "f" .bool []) fun r =>
      .operate (.primitive (.ite (given r (.bool false)) (.concrete (.int 1)) (.concrete (.int 2))))
        fun q => .result (given q (.bool false))

theorem shadowed_supplied (has : Value → Prop) : shadowed.Supplied has := by
  refine fun _ => ⟨by simp [Operation.operands], fun r => ⟨fun v hv => ?_, fun q => ?_⟩⟩
  · rcases List.mem_cons.1 hv with rfl | hv
    · exact (given_supplied r).imp_right .inr
    · refine .inl ?_
      rcases List.mem_cons.1 hv with rfl | hv
      · rfl
      · rw [List.mem_singleton.1 hv]
        rfl
  · exact (given_supplied q).imp_right .inr

/-- Where that takes place. -/
def shadowedStart : Workspace :=
  ⟨⟨2, ⟨[.empty]⟩, ⟨[.empty, .empty]⟩, ⟨[[], []]⟩, ⟨[[]]⟩, ⟨[0]⟩, ⟨[0]⟩⟩,
    .blank 1 1 {} ⟨0, 1, 1, 0, 0, 0⟩⟩

/-- A recursive definition of an integer whose body applies the name as a truth value. -/
theorem self_call_at_other_signature :
    shadowed.Uses (·.keepsSignatures = true) ∧ (∀ has, shadowed.Supplied has) ∧
      (function "f" .int).start (Workspace.new {}) =
        .ok (shadowedStart.scope, shadowedStart.session) ∧
      ∃ d s, ((function "f" .int).lower (Workspace.new {}).scope shadowed.run).run.run
          (Workspace.new {}).session = (.ok d, s) ∧
        d.signature = ⟨[], .int⟩ ∧ d.recursive = true ∧
        ¬(outcome (Lowering.replayed shadowed.run) shadowedStart).2.scope.AppliesAt "f"
          d.signature := by
  let d : Declaration := ⟨"f", .int, ⟨[], [], [("l1_s3", "1"), ("l1_s4", "2"), ("l1_s2", "f"),
    ("l1_s5", "(ite l1_s2 l1_s3 l1_s4)")], "l1_s5"⟩, true⟩
  have hrun : (((function "f" .int).lower (Workspace.new {}).scope shadowed.run).run.run
      (Workspace.new {}).session).1 = .ok d := by decide +kernel
  have hmem : (2, ⟨.apply "f", .bool, []⟩) ∈
      (outcome (Lowering.replayed shadowed.run) shadowedStart).2.scope.assignments := by
    decide +kernel
  have hkind : (outcome (Lowering.replayed shadowed.run) shadowedStart).2.scope.kindOf? 2 =
      some .bool := by decide +kernel
  generalize ((function "f" .int).lower (Workspace.new {}).scope shadowed.run).run.run
    (Workspace.new {}).session = p at hrun
  obtain ⟨a, s⟩ := p
  obtain rfl := hrun
  refine ⟨⟨trivial, fun _ => ⟨rfl, fun _ => ⟨rfl, fun _ => trivial⟩⟩⟩, shadowed_supplied,
    by decide +kernel, d, s, rfl, rfl, rfl, fun h => ?_⟩
  cases hkind.symm.trans (h _ hmem rfl).2

end Sample

end Target

end SmtLowering
