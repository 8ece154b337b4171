import Mathlib.Logic.Equiv.Basic
import SmtLowering.Proofs.Foreign
import SmtLowering.Proofs.Records
import SmtLowering.Proofs.Targets
import SmtLowering.Proofs.Translations
import SmtLowering.Proofs.Validation

/-!
# Foreign nodes are never recorded

A `Relabelling` permutes the nodes of one scope. A computation may hold values of other scopes than
its own. Relabelled in all of them, it does what it did: it succeeds or fails where it did and
leaves the very same workspace (`Computation.outcome_relabel`). So nothing that a trace or a
registry holds depends on a foreign node, and a foreign node shows up only in a value that is handed
on or in the error that names it.

Each operation commutes with the relabelling, since the relabelling is a lawful translation of the
scopes that are not relabelled: a scope's own nodes keep their names there
(`Relabelling.translation_lawful`).
-/

namespace SmtLowering

structure Relabelling where
  scope : Nat
  nodes : Equiv.Perm NodeId

section Data

variable (ρ : Relabelling)

namespace Relabelling

def symm : Relabelling := ⟨ρ.scope, ρ.nodes.symm⟩

def node (owner : Nat) (n : NodeId) : NodeId := if owner = ρ.scope then ρ.nodes n else n

@[simp]
theorem node_symm_node (owner : Nat) (n : NodeId) : ρ.symm.node owner (ρ.node owner n) = n := by
  unfold node symm
  split_ifs
  · exact ρ.nodes.symm_apply_apply n
  · rfl

end Relabelling

namespace Value

def relabel : Value → Value
  | concrete c => concrete c
  | symbolic n k owner => symbolic (ρ.node owner n) k owner

@[simp]
theorem relabel_symm_relabel (v : Value) : (v.relabel ρ).relabel ρ.symm = v := by
  cases v with
  | concrete c => rfl
  | symbolic n k owner => simp [relabel]

end Value

namespace ValueError

/-- The error names the node of a foreign value. -/
def relabel : ValueError → ValueError
  | foreignValue n owner expected => foreignValue (ρ.node owner n) owner expected
  | e => e

@[simp]
theorem relabel_symm_relabel (e : ValueError) : (e.relabel ρ).relabel ρ.symm = e := by
  cases e with
  | foreignValue n owner expected => simp [relabel]
  | _ => rfl

end ValueError

namespace LowerError

def relabel : LowerError → LowerError
  | replay context cause => replay context (cause.relabel ρ)
  | e => e

@[simp]
theorem relabel_symm_relabel (e : LowerError) : (e.relabel ρ).relabel ρ.symm = e := by
  cases e with
  | replay context cause => simp [relabel]
  | _ => rfl

end LowerError

/-- The computation with the nodes of the scope relabelled wherever it uses them. What it gets back
is relabelled too, so it goes on with what it would have got. -/
def Computation.relabel : Computation → Computation
  | result v => result (v.relabel ρ)
  | abort e => abort (e.relabel ρ)
  | operate o next => operate (o.map (Value.relabel ρ)) fun r =>
      (next (Except.mapBoth (ValueError.relabel ρ.symm)
        (Option.map (Value.relabel ρ.symm)) r)).relabel
  | inspect next => inspect fun w => (next w).relabel
  | lambda k body next => lambda k body.relabel fun r =>
      (next (r.mapError (LowerError.relabel ρ.symm))).relabel
  | function name k body next => function name k body.relabel fun r =>
      (next (r.mapError (LowerError.relabel ρ.symm))).relabel
  | constraint label body next => constraint label body.relabel fun r =>
      (next (r.mapError (LowerError.relabel ρ.symm))).relabel

end Data

/-- How a step ends when it is run on relabelled values. -/
abbrev Relabelling.result {α : Type} (ρ : Relabelling) (g : α → α) :
    Except (Fault ValueError) α → Except (Fault ValueError) α :=
  Except.mapBoth (Fault.map (ValueError.relabel ρ)) g

namespace Relabelling

section Translation

variable (ρ : Relabelling)

/-- Of the names, only those of the nodes of one scope are others. -/
def names : Renaming := ⟨id, ρ.node, id, id⟩

theorem value_names : ρ.names.value = Value.relabel ρ := by
  funext v
  cases v <;> rfl

theorem error_names : ρ.names.error = ValueError.relabel ρ := by
  funext e
  cases e <;> rfl

theorem result_names {α : Type} (g : α → α) : ρ.names.result g = ρ.result g := by
  rw [Renaming.result, error_names]

theorem expr_names (e : Expr) : ρ.names.expr e = e := by
  obtain ⟨op, domain, args⟩ := e
  cases op <;> rfl

/-- A scope that is not the relabelled one stands for itself. -/
def translation : Translation where
  toRenaming := ρ.names
  scope := id
  Admits s := s.number ≠ ρ.scope

theorem admits_of_grows {s t : Scope} (hg : s.Grows t) (hs : ρ.translation.Admits s) :
    ρ.translation.Admits t := fun ht => hs (hg.number.symm.trans ht)

theorem translation_lawful : ρ.translation.Lawful where
  faithful := ⟨Function.injective_id, fun number =>
    Function.LeftInverse.injective (ρ.node_symm_node number)⟩
  number _ := rfl
  node _ hs := if_neg hs
  constant {s} c hs := ⟨ρ.admits_of_grows (s.constant_grows c) hs, rfl⟩
  intern {s e} k hs _ := by
    have hown (n : NodeId) : ρ.names.value (.symbolic n k s.number) = .symbolic n k s.number :=
      congrArg (Value.symbolic · k s.number) (if_neg hs)
    have hvalue : ρ.names.value (s.intern e k).1 = (s.intern e k).1 := by
      rcases hl : s.exprIds.lookup e with _ | n
      · rw [Scope.intern_of_lookup_none hl]
        exact hown s.nodeCount
      · rw [Scope.intern_of_lookup hl]
        exact hown n
    refine ⟨ρ.admits_of_grows (s.intern_grows e k) hs, ?_⟩
    change s.intern (ρ.names.expr e) k = (ρ.names.value (s.intern e k).1, _)
    rw [hvalue, expr_names]
    rfl
  addInput _ _ _ hs := ⟨hs, rfl, rfl⟩
  record {s} r hs := ⟨ρ.admits_of_grows (s.record_grows r) hs, by cases r <;> rfl⟩

/-- What ends in the same way but for the names does so but for the relabelling. -/
theorem outcome_of_mirrors {α : Type} {g : α → α} {m m' : Build α} {s : Scope}
    (h : ρ.translation.Mirrors g m m' s) :
    outcome m' s = (ρ.result g (outcome m s).1, (outcome m s).2) := by
  rw [← ρ.result_names]
  exact h.2.2

end Translation

end Relabelling

namespace Operation

variable {ρ : Relabelling}

theorem sessionAfter_relabel (w : Workspace) (o : Operation) :
    (o.map (Value.relabel ρ)).sessionAfter w = o.sessionAfter w := by
  rw [← ρ.value_names]
  cases o with
  | apply name result args => simp only [map, sessionAfter, Renaming.map_kind_value]
  | lookup entries index fallback => simp only [map, sessionAfter, Renaming.needsTable_map]
  | _ => rfl

/-- An operation on relabelled operands leaves the same workspace. -/
theorem outcome_relabel {w : Workspace} (hs : w.scope.number ≠ ρ.scope) (o : Operation) :
    outcome (o.map (Value.relabel ρ)).run w =
      (ρ.result (Option.map (Value.relabel ρ)) (outcome o.run w).1, (outcome o.run w).2) := by
  have hstep : outcome ((o.map (Value.relabel ρ)).scopeStep w) w.scope =
      (ρ.result (Option.map (Value.relabel ρ)) (outcome (o.scopeStep w) w.scope).1,
        (outcome (o.scopeStep w) w.scope).2) := by
    rw [← ρ.value_names]
    exact ρ.outcome_of_mirrors
      (ρ.translation_lawful.mirrors_scopeStep hs (fun _ => rfl) rfl rfl o)
  rw [outcome_run, outcome_run, sessionAfter_relabel, hstep]

end Operation

namespace Workspace

/-- The same scope, in a session that has opened no fewer. -/
structure Follows (w w' : Workspace) : Prop where
  number : w'.scope.number = w.scope.number
  scopes : w.session.scopes ≤ w'.session.scopes

theorem Follows.trans {w w' w'' : Workspace} (h : w.Follows w') (h' : w'.Follows w'') :
    w.Follows w'' :=
  ⟨h'.number.trans h.number, Nat.le_trans h.scopes h'.scopes⟩

end Workspace

section Follows

theorem Session.fork_number {s s' : Session} {parent child : Scope} {purpose : Purpose}
    (h : s.fork parent purpose = .ok (child, s')) :
    child.number = s.scopes ∧ s'.scopes = s.scopes + 1 := by
  rcases World.fork_cases s parent purpose with ⟨child', after, hf, hc, ha⟩ | ⟨e, hf⟩ <;>
    rw [hf] at h
  · cases h
    exact ⟨by rw [hc, Scope.blank_eq], ha⟩
  · cases h

theorem Target.conclude_scopes (t : Target) (w : Workspace)
    (r : Except (Fault ValueError) NodeId) (c : Workspace) :
    (t.conclude w r c).2.scopes = c.session.scopes := by
  rcases t.conclude_cases w r c with ⟨f, h⟩ | ⟨v, a, -, -, h⟩ <;> rw [h]
  · rcases t with _ | _ | _ <;> rcases f with _ | _ <;> try rfl
    simp only [withdraw]
    split_ifs <;> rfl
  · cases t <;> rfl

theorem Operation.run_follows (o : Operation) (w : Workspace) : w.Follows (outcome o.run w).2 := by
  rw [outcome_run]
  exact ⟨(o.scopeStep_grows w).number, Nat.le_of_eq (o.sessionAfter_scopes w).symm⟩

theorem Computation.relates_follows : Relates (fun _ => True) Workspace.Follows where
  output _ := trivial
  refl _ := ⟨rfl, Nat.le_refl _⟩
  trans _ _ _ := Workspace.Follows.trans
  operate o w _ := o.run_follows w
  conclude t w child s c r ha h := by
    obtain ⟨hf, -⟩ := Target.start_eq_ok ha
    refine ⟨rfl, ?_⟩
    have hscopes := (Session.fork_number hf).2
    have hc : s.scopes ≤ c.session.scopes := h.scopes
    simp only [Target.conclude_scopes]
    omega

theorem Computation.run_follows (c : Computation) (w : Workspace) :
    w.Follows (outcome c.run w).2 := relates_follows.run c c.uses_true w

end Follows

namespace Work

variable {ρ : Relabelling} {α β : Type}

/-- From the workspace `w`, `x'` ends as `x` does but for the relabelling, and in the same
workspace. -/
def Mirrors (ρ : Relabelling) (g : α → α) (x x' : Work α) (w : Workspace) : Prop :=
  outcome x' w = (ρ.result g (outcome x w).1, (outcome x w).2)

theorem Mirrors.bind {g : α → α} {h : β → β} {x x' : Work α} {k k' : α → Work β} {w : Workspace}
    (hx : Mirrors ρ g x x' w)
    (hk : ∀ a, (outcome x w).1 = .ok a → Mirrors ρ h (k a) (k' (g a)) (outcome x w).2) :
    Mirrors ρ h (x >>= k) (x' >>= k') w := by
  unfold Mirrors at hx ⊢
  rw [outcome_bind, outcome_bind, hx]
  rcases hxw : outcome x w with ⟨_ | a, w'⟩ <;> rw [hxw] at hk
  · rfl
  · exact hk a rfl

theorem mirrors_attempt {g : α → α} {x x' : Work α} {w : Workspace} (hx : Mirrors ρ g x x' w) :
    Mirrors ρ (Except.mapBoth (ValueError.relabel ρ) g) (attempt x) (attempt x') w := by
  change attempt x' w = (ρ.result _ (attempt x w).1, (attempt x w).2)
  unfold attempt
  rw [hx]
  rcases outcome x w with ⟨(e | v) | a, w'⟩ <;> rfl

theorem mirrors_replayed {x x' : Work Value} {w : Workspace}
    (hx : Mirrors ρ (Value.relabel ρ) x x' w)
    (hn : (outcome x w).2.scope.number ≠ ρ.scope) :
    Mirrors ρ id (Lowering.replayed x) (Lowering.replayed x') w := by
  refine hx.bind fun v _ => ?_
  have hout := ρ.outcome_of_mirrors (ρ.translation_lawful.mirrors_addOutput hn v)
  rw [← ρ.value_names]
  unfold Mirrors
  rw [outcome_build, outcome_build]
  exact congrArg (fun p => (p.1, Workspace.mk (outcome x w).2.session p.2)) hout

end Work

section Lowerings

variable (ρ : Relabelling)

/-- Validation names no value. -/
theorem Trace.relabel_of_validate {context : String} {t : Trace} {k : Kind} {e : LowerError}
    (h : t.validate context k = .error e) : e.relabel ρ = e := by
  have hrefuse {α : Type} {cause : List α → Unsupported} {found : List α}
      (h : Check.refuse context cause found = some e) : e.relabel ρ = e := by
    unfold Check.refuse at h
    split_ifs at h
    cases h
    rfl
  rw [Trace.validate_eq] at h
  split at h
  · next e' he =>
    cases h
    obtain ⟨check, -, hc⟩ := List.exists_of_findSome?_eq_some he
    cases check with
    | output =>
      obtain ⟨cause, -, rfl⟩ := Option.map_eq_some_iff.1 hc
      rfl
    | _ => exact hrefuse hc
  · cases h

namespace Target

/-- How a lowering ends when its computation ran on relabelled values. -/
abbrev relabelResult {α : Type} : Except (Fault LowerError) α → Except (Fault LowerError) α :=
  Except.mapBoth (Fault.map (LowerError.relabel ρ)) id

/-- A lowering is refused without a look at a value. -/
theorem relabel_of_start {t : Target} {w : Workspace} {e : LowerError} (h : t.start w = .error e) :
    e.relabel ρ = e := by
  unfold start at h
  split at h
  · cases h
    rfl
  · unfold Session.fork at h
    split_ifs at h
    cases h
    rfl

theorem withdraw_relabel (t : Target) (before w : Workspace) (f : Fault LowerError) :
    t.withdraw before w (f.map (LowerError.relabel ρ)) = t.withdraw before w f := by
  cases t <;> cases f <;> rfl

theorem settle_relabel (context : String) (k : Kind) (r : Except (Fault ValueError) NodeId)
    (child : Scope) :
    settle context k (ρ.result id r) child = relabelResult ρ (settle context k r child) := by
  refine settle_map (fun _ => rfl) ?_ r
  rcases hv : child.finish.validate context k with e | v
  · exact congrArg Except.error (Trace.relabel_of_validate ρ hv).symm
  · rfl

theorem conclude_relabel (t : Target) (before : Workspace)
    (r : Except (Fault ValueError) NodeId) (child : Workspace) :
    t.conclude before (ρ.result id r) child =
      (relabelResult ρ (t.conclude before r child).1, (t.conclude before r child).2) := by
  simp only [conclude, settle_relabel]
  rcases settle t.context t.expected r child.scope with f | v
  · simp only [relabelResult, Except.mapBoth, withdraw_relabel]
  · have he : relabelResult ρ (t.emit ⟨child.session, before.scope⟩ v) = _ :=
      map_emit (fun _ _ _ => rfl) t ⟨child.session, before.scope⟩ v
    simp only [relabelResult, Except.mapBoth, id]
    rcases hv : t.emit ⟨child.session, before.scope⟩ v with f | a
    · rw [hv] at he
      simp only [relabelResult, Except.mapBoth, Except.error.injEq] at he
      simp only [he]
    · rfl

end Target

end Lowerings

namespace Computation

variable {ρ : Relabelling}

theorem relabel_lower (t : Target) (body : Computation)
    (next : Except LowerError t.Result → Computation) :
    (lower t body next).relabel ρ = lower t (body.relabel ρ) fun r =>
      (next (r.mapError (LowerError.relabel ρ.symm))).relabel ρ := by
  cases t <;> rfl

/-- Each lowering is carried out in a scope that is opened for it, which is not the relabelled one,
as this one is there already. -/
theorem mirrors_nested {t : Target} {x x' : Work Value} {w : Workspace}
    (hf : ρ.scope < w.session.scopes)
    (hx : ∀ w : Workspace, w.scope.number ≠ ρ.scope → ρ.scope < w.session.scopes →
      Work.Mirrors ρ (Value.relabel ρ) x x' w ∧ (outcome x w).2.scope.number = w.scope.number) :
    Work.Mirrors ρ (Except.mapError (LowerError.relabel ρ))
      (Lowering.nested fun s => t.lower s x) (Lowering.nested fun s => t.lower s x') w := by
  have hlower : (t.lower w.scope x').run.run w.session =
      (Target.relabelResult ρ ((t.lower w.scope x).run.run w.session).1,
        ((t.lower w.scope x).run.run w.session).2) := by
    rw [t.outcome_lower, t.outcome_lower]
    rcases ha : t.start w with e | ⟨child, s⟩
    · simp only [Target.relabelResult, Except.mapBoth, Fault.map, Target.relabel_of_start ρ ha]
    · obtain ⟨hc, hs⟩ := Session.fork_number (Target.start_eq_ok ha).1
      obtain ⟨hm, hn⟩ := hx ⟨s, child⟩ (show child.number ≠ ρ.scope by omega)
        (show ρ.scope < s.scopes by omega)
      have hr := Work.mirrors_replayed hm (hn ▸ show child.number ≠ ρ.scope by omega)
      unfold Work.Mirrors at hr
      simp only [hr, Target.conclude_relabel]
  unfold Work.Mirrors
  rw [Lowering.outcome_nested, Lowering.outcome_nested, hlower]
  rcases (t.lower w.scope x).run.run w.session with ⟨(e | v) | a, s⟩ <;> rfl

/-- Relabelling the nodes of another scope changes nothing but the values handed on and the errors
that name one of them. -/
theorem outcome_relabel (c : Computation) (w : Workspace) (hw : w.scope.number ≠ ρ.scope)
    (hf : ρ.scope < w.session.scopes) :
    Work.Mirrors ρ (Value.relabel ρ) c.run (c.relabel ρ).run w := by
  induction c using induction_lower generalizing w with
  | result v => rfl
  | abort e => rfl
  | operate o next ih =>
    have hstep : Work.Mirrors ρ _ o.run (o.map (Value.relabel ρ)).run w := o.outcome_relabel hw
    refine (Work.mirrors_attempt hstep).bind fun r _ => ?_
    have hr : Except.mapBoth (ValueError.relabel ρ.symm) (Option.map (Value.relabel ρ.symm))
        (Except.mapBoth (ValueError.relabel ρ) (Option.map (Value.relabel ρ)) r) = r := by
      rcases r with e | _ | v <;> simp [Except.mapBoth]
    have hfollows := o.run_follows w
    simp only [hr]
    refine ih r _ ?_ ?_ <;> rw [Work.attempt_workspace]
    · exact hfollows.number ▸ hw
    · exact Nat.lt_of_lt_of_le hf hfollows.scopes
  | inspect next ih => exact ih w w hw hf
  | lower t body next ihb ih =>
    rw [relabel_lower, run_lower, run_lower]
    refine (mirrors_nested hf fun w hw hf => ⟨ihb w hw hf, (body.run_follows w).number⟩).bind
      fun r _ => ?_
    have hr : (r.mapError (LowerError.relabel ρ)).mapError (LowerError.relabel ρ.symm) = r := by
      rcases r with e | a <;> simp [Except.mapError]
    have hfollows := relates_follows.lower body.run_follows t w
    rw [hr]
    refine ih r _ ?_ ?_ <;> rw [Lowering.nested_workspace]
    · exact hw
    · exact Nat.lt_of_lt_of_le hf hfollows.scopes

/-- A body whose result is a node of another scope fails while it is replayed. -/
theorem lower_foreign {t : Target} {w : Workspace} {child : Scope} {s : Session}
    (ha : t.start w = .ok (child, s)) {body : Computation} {n : NodeId} {k : Kind} {owner : Nat}
    {c : Workspace} (hb : outcome body.run ⟨s, child⟩ = (.ok (.symbolic n k owner), c))
    (howner : owner ≠ child.number) :
    ((t.lower w.scope body.run).run.run w.session).1 =
      .error (.error (.replay t.context (.foreignValue n owner child.number))) := by
  have hc : c.scope.number = child.number := by
    have hfollows := (body.run_follows ⟨s, child⟩).number
    rwa [hb] at hfollows
  have hr : outcome (Lowering.replayed body.run) ⟨s, child⟩ =
      (.error (.error (.foreignValue n owner child.number)), c) := by
    rw [Lowering.replayed, outcome_bind_ok hb, outcome_build, Build.addOutput, Build.materialize]
    simp only [outcome_bind, outcome_get, hc, howner, if_false]
    rfl
  rw [t.outcome_lower, ha]
  simp only [hr]
  rfl

/-- No value of another scope is recorded. An operation that succeeds on one answers with a truth
value or an operand and leaves the workspace as it is, where a conjunction of many values may have
built one of own values. What a computation leaves in the scope and in the session does not depend
on which nodes of another scope its values name. A body whose result is foreign fails. -/
theorem foreign_never_recorded (w : Workspace) :
    (∀ (o : Operation) (v : Value), v ∈ o.operands → v.Foreign w.scope.number →
      ∀ r w', outcome o.run w = (.ok r, w') →
        (∃ u, r = some u ∧ u.AnsweredFrom o.operands) ∧
        ((∀ vs, o ≠ .all vs) → w' = w) ∧
        ∀ vs, o = .all vs → ∃ us, us <+: vs ∧ (∀ x ∈ us, ¬x.Foreign w.scope.number) ∧
          w' = (outcome (Operation.all us).run w).2) ∧
    (∀ (c : Computation) (ρ : Relabelling), w.scope.number ≠ ρ.scope →
      ρ.scope < w.session.scopes →
        outcome (Lowering.replayed (c.relabel ρ).run) w =
          (ρ.result id (outcome (Lowering.replayed c.run) w).1,
            (outcome (Lowering.replayed c.run) w).2)) ∧
    ∀ (t : Target) (body : Computation) child s n k owner c, t.start w = .ok (child, s) →
      outcome body.run ⟨s, child⟩ = (.ok (.symbolic n k owner), c) → owner ≠ child.number →
        ((t.lower w.scope body.run).run.run w.session).1 =
          .error (.error (.replay t.context (.foreignValue n owner child.number))) := by
  refine ⟨fun o v hv hf r w' h => ?_, fun c ρ hw hρ => ?_,
    fun t body child s n k owner c ha hb hn => lower_foreign ha hb hn⟩
  · by_cases ho : ∀ vs, o ≠ .all vs
    · obtain ⟨hw, hu⟩ := Operation.run_foreign ho hv hf h
      exact ⟨hu, fun _ => hw, fun vs he => (ho vs he).elim⟩
    · obtain ⟨vs, rfl⟩ : ∃ vs, o = .all vs := by simpa using ho
      obtain ⟨hu, hus⟩ := Operation.run_all_foreign hv hf h
      refine ⟨hu, fun hne => (hne vs rfl).elim, ?_⟩
      rintro _ ⟨⟩
      exact hus
  · exact Work.mirrors_replayed (c.outcome_relabel w hw hρ) ((c.run_follows w).number ▸ hw)

/-- A scope forked from an outermost one for a lambda. -/
def insideLambda : Workspace :=
  ⟨{ (Workspace.new {}).session with scopes := 2 },
    .blank 1 1 {} (Workspace.new {}).scope.branches⟩

/-- A truth value of the outermost scope. -/
def outerBit : Value := .symbolic 2 .bool 0

/-- Conjoins the outer value with false, and compares it with itself. -/
def usesOuterBit : Computation :=
  .operate (.primitive (.and (.bool false) outerBit)) fun r =>
    .operate (.primitive (.eq outerBit outerBit)) fun _ => .result (r.toOption.join.getD outerBit)

theorem foreign_never_recorded_outerBit :
    (outcome (Operation.primitive (.and (.bool false) outerBit)).run insideLambda).2 =
        insideLambda ∧
      (outcome (Lowering.replayed (usesOuterBit.relabel ⟨0, Equiv.swap 2 3⟩).run) insideLambda).2 =
        (outcome (Lowering.replayed usesOuterBit.run) insideLambda).2 ∧
      (((Target.lambda .bool).lower (Workspace.new {}).scope (result outerBit).run).run.run
        (Workspace.new {}).session).1 =
          .error (.error (.replay "lambda" (.foreignValue 2 0 1))) := by
  have hfork : (Target.lambda .bool).start (Workspace.new {}) =
      .ok (insideLambda.scope, insideLambda.session) := rfl
  refine ⟨?_, ?_, ?_⟩
  · have hand := (foreign_never_recorded insideLambda).1
      (.primitive (.and (.bool false) outerBit)) outerBit (by simp [Operation.operands,
        Primitive.operands]) (show 0 ≠ 1 by decide) _ _ rfl
    exact hand.2.1 fun _ h => by cases h
  · exact congrArg Prod.snd ((foreign_never_recorded insideLambda).2.1 usesOuterBit
      ⟨0, Equiv.swap 2 3⟩ (show 1 ≠ 0 by decide) (show 0 < 2 by decide))
  · exact (foreign_never_recorded (Workspace.new {})).2.2 (.lambda .bool) (result outerBit) _ _ 2
      .bool 0 insideLambda hfork rfl (show 0 ≠ 1 by decide)

/-- The scope with two truth values as inputs. -/
def insideWithInputs : Workspace :=
  (outcome (Operation.input .universal "b" .bool).run
    (outcome (Operation.input .universal "a" .bool).run insideLambda).2).2

/-- The inputs, a false and the outer value. -/
def inputsThenOuterBit : List Value :=
  [.symbolic 2 .bool 1, .symbolic 3 .bool 1, .bool false, outerBit]

/-- A conjunction of many values may make nodes before false absorbs what it has and a foreign value
with it. -/
theorem all_records_before_foreign :
    (outerBit ∈ inputsThenOuterBit ∧ outerBit.Foreign insideWithInputs.scope.number) ∧
      (outcome (Operation.all inputsThenOuterBit).run insideWithInputs).1 =
        .ok (some (.bool false)) ∧
      insideWithInputs.scope.assignments = [] ∧
      (outcome (Operation.all inputsThenOuterBit).run insideWithInputs).2.scope.assignments =
        [(4, ⟨.and, .bool, [2, 3]⟩)] :=
  ⟨⟨by decide, show 0 ≠ 1 by decide⟩, rfl, rfl, rfl⟩

end Computation

end SmtLowering
