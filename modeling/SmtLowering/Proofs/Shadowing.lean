import Mathlib.Data.List.Nodup
import Mathlib.Logic.Relation
import SmtLowering.Proofs.Captures
import SmtLowering.Proofs.Repetition

/-!
# Bindings that shadow nothing

A body binds the nodes of its scope that are no truth values, each once
(`Scope.Partitioned.boundNames_nodup`). Their names carry the level below the outermost one, so
scopes of different levels bind different names (`Scope.Partitioned.disjoint_boundNames`). Levels
grow inwards: from a scope to those that are forked from it (`World.Encloses.level_lt`), and from a
computation to what it lowers (`Computation.LowersTo.exists_scope`). So bindings shadow neither one
another nor those of an enclosing scope (`World.names_unambiguous`).
-/

namespace SmtLowering

section Names

/-- The nodes that a body binds, parameters first. -/
def Scope.boundNodes (s : Scope) : List NodeId :=
  s.inputIds ++ s.constantIds.filter (fun n => !n.isTruthValue) ++ s.targets

def Scope.boundNames (s : Scope) : List String := s.boundNodes.map (NodeId.smtName s.level)

/-- The names of the parameters and the bindings. -/
def Definition.boundNames (d : Definition) : List String :=
  d.params.map (·.1) ++ d.bindings.map (·.1)

/-- A definition binds the names of the scope that it is spelled for. -/
theorem Definition.boundNames_eq {s : Scope} {k : Kind} {output : NodeId} {d : Definition}
    (h : Definition.ofTrace (s.finish.valid k output) = .ok d) : d.boundNames = s.boundNames := by
  obtain ⟨hparams, hbindings, -⟩ := ValidTrace.bindings_eq h
  have hinputs : (s.finish.valid k output).params = s.inputs.map fun i => (i.node, i.kind) := rfl
  rw [Definition.boundNames, hparams, hbindings, hinputs, ValidTrace.items, Scope.boundNames,
    Scope.boundNodes, Scope.inputIds, Scope.constantIds, Scope.targets, List.filter_map]
  simp only [List.map_append, List.map_map, List.append_assoc]
  rfl

namespace Scope.Partitioned

variable {s t : Scope} (h : s.Partitioned)
include h

theorem boundNodes_nodup : s.boundNodes.Nodup := by
  have hsub : s.boundNodes.Sublist (s.inputIds ++ s.constantIds ++ s.targets) :=
    ((List.Sublist.refl _).append List.filter_sublist).append (.refl _)
  exact h.nodup.sublist hsub

theorem isTruthValue_of_bound {n : NodeId} (hn : n ∈ s.boundNodes) : n.isTruthValue = false := by
  rw [← Bool.not_eq_true, NodeId.isTruthValue_iff, Nat.not_lt]
  rcases List.mem_append.1 hn with hn | hn
  · rcases List.mem_append.1 hn with hn | hn
    · exact h.numbered.inputs n hn
    · have hkept := (List.mem_filter.1 hn).2
      rwa [Bool.not_eq_true', ← Bool.not_eq_true, NodeId.isTruthValue_iff, Nat.not_lt] at hkept
  · exact (h.numbered.targets n hn).1

theorem boundNames_nodup : s.boundNames.Nodup :=
  List.Nodup.map (fun _ _ => NodeId.smtName_injective) h.boundNodes_nodup

theorem disjoint_boundNames (hlevel : s.level ≠ t.level) :
    s.boundNames.Disjoint t.boundNames := by
  intro x hs ht
  obtain ⟨m, hm, rfl⟩ := List.mem_map.1 hs
  obtain ⟨n, -, hname⟩ := List.mem_map.1 ht
  rcases ((NodeId.smtName_eq_iff _ _ _ _).1 hname.symm).2 with htruth | heq
  · rw [h.isTruthValue_of_bound hm] at htruth
    cases htruth
  · exact hlevel heq

end Scope.Partitioned

end Names

namespace Computation

/-- Run in the workspace, the computation lowers something to the definition, in the fork of its
scope or as many scopes below that. -/
inductive LowersTo (d : Definition) : Computation → Workspace → Nat → Prop
  | operate {o next w r w' k} : outcome (Work.attempt o.run) w = (.ok r, w') →
    (next r).LowersTo d w' k → (operate o next).LowersTo d w k
  | inspect {next w k} : (next w).LowersTo d w k → (inspect next).LowersTo d w k
  | here {t body next w child s v} : t.start w = .ok (child, s) →
    (outcome (Lowering.replayed body.run) ⟨s, child⟩).2.scope.finish.validate t.context t.expected =
      .ok v →
    Definition.ofTrace v = .ok d → (lower t body next).LowersTo d w 0
  | within {t body next w child s k} : t.start w = .ok (child, s) → body.LowersTo d ⟨s, child⟩ k →
    (lower t body next).LowersTo d w (k + 1)
  | after {t body next w r w' k} :
    outcome (Lowering.nested fun s => t.lower s body.run) w = (.ok r, w') →
    (next r).LowersTo d w' k → (lower t body next).LowersTo d w k

variable {c : Computation} {w : Workspace} {d : Definition} {k : Nat}

/-- A definition binds the names of a scope of its level. -/
theorem LowersTo.exists_scope (h : c.LowersTo d w k) :
    ∃ u : Scope, u.Partitioned ∧ u.level = w.scope.level + k + 1 ∧ d.boundNames = u.boundNames := by
  induction h with
  | @operate o next w r w' k hstep _ ih =>
    have hlevel := (Scope.invariant_partitioned.relates.operate o w trivial).1
    rw [← Work.attempt_workspace, hstep] at hlevel
    rwa [hlevel] at ih
  | inspect _ ih => exact ih
  | @here t body next w child s v hstart hv hd =>
    obtain ⟨hlevel, hu⟩ := Target.replayed_invariant Scope.invariant_partitioned hstart body
    obtain ⟨-, -, output, -, rfl⟩ := Trace.validate_ok hv
    exact ⟨_, hu, hlevel, Definition.boundNames_eq hd⟩
  | @within t body next w child s k hstart _ ih =>
    have hlevel : child.level = w.scope.level + 1 := by
      rw [Session.fork_blank (Target.start_eq_ok hstart).1, Scope.blank_eq]
    obtain ⟨u, hu, hulevel, hnames⟩ := ih
    change u.level = child.level + k + 1 at hulevel
    exact ⟨u, hu, by omega, hnames⟩
  | @after t body next w r w' k hstep _ ih =>
    have hscope : w'.scope = w.scope := by
      have hend := congrArg (·.scope) (Lowering.nested_workspace w fun s => t.lower s body.run)
      rwa [hstep] at hend
    rwa [hscope] at ih

end Computation

namespace World

section Invariants

variable {I : Scope → Prop} (hI : Scope.Invariant I) {w : World}
include hI

theorem act_invariant (hw : ∀ s ∈ w.scopes, I s) (a : Act) : ∀ s ∈ (w.act a).scopes, I s := by
  cases a with
  | operate i o =>
    rcases hs : w.scopes[i]? with _ | s
    · rwa [act, next_call_none w o hs]
    · rw [act, next_call w o hs]
      intro t ht
      rcases List.mem_or_eq_of_mem_set ht with ht | rfl
      · exact hw t ht
      · exact ((hI.stable o (w.workspace s)).scopeStep (hw s (List.mem_of_getElem? hs))).2.1
  | fork i purpose =>
    simp only [act, next]
    rcases hs : w.scopes[i]? with _ | s
    · exact hw
    · simp only
      rcases hf : w.session.fork s purpose with e | ⟨child, session⟩
      · exact hw
      · intro t ht
        rcases List.mem_append.1 ht with ht | ht
        · exact hw t ht
        · rw [List.mem_singleton.1 ht, Session.fork_blank hf]
          exact hI.blank _ _ _ _
  | lower i t body =>
    simp only [act]
    rcases w.scopes[i]? with _ | s
    · exact hw
    · exact hw

/-- What holds of the scopes of a session holds of them, and of those that were forked, whatever is
done. -/
theorem acts_invariant (hw : ∀ s ∈ w.scopes, I s) (as : List Act) :
    ∀ s ∈ (w.acts as).scopes, I s := by
  induction as generalizing w with
  | nil => exact hw
  | cons a as ih => exact ih (act_invariant hI hw a)

end Invariants

section Enclosing

/-- After the acts, the `j`th scope is a fork of the `i`th. -/
inductive Forked (w : World) : List Act → Nat → Nat → Prop
  | fork (as : List Act) (i : Nat) (purpose : Purpose) {s child session} :
    (w.acts as).scopes[i]? = some s →
    (w.acts as).session.fork s purpose = .ok (child, session) →
    Forked w (as ++ [.fork i purpose]) i (w.acts as).scopes.length
  | later {as i j} (a : Act) : Forked w as i j → Forked w (as ++ [a]) i j

/-- After the acts, the `j`th scope was forked from the `i`th, or from one that this encloses. -/
abbrev Encloses (w : World) (as : List Act) : Nat → Nat → Prop := Relation.TransGen (Forked w as)

variable {w : World} {as : List Act} {i j : Nat} {s t : Scope}

theorem acts_snoc (w : World) (as : List Act) (a : Act) : w.acts (as ++ [a]) = (w.acts as).act a :=
  List.foldl_concat ..

/-- A fork is one level below its parent, and stays there. -/
theorem Forked.level (h : Forked w as i j) :
    ∃ s t, (w.acts as).scopes[i]? = some s ∧ (w.acts as).scopes[j]? = some t ∧
      t.level = s.level + 1 := by
  induction h with
  | @fork as i purpose s child session hs hf =>
    have hlevel : child.level = s.level + 1 := by
      rw [Session.fork_blank hf, Scope.blank_eq]
    have hscopes : (w.acts (as ++ [.fork i purpose])).scopes = (w.acts as).scopes ++ [child] := by
      rw [acts_snoc, act, next, hs]
      simp only [hf]
    rw [hscopes, List.getElem?_append_left (List.getElem?_eq_some_iff.1 hs).1]
    exact ⟨s, child, hs, List.getElem?_concat_length, hlevel⟩
  | @later as i j a _ ih =>
    obtain ⟨s, t, hs, ht, hlevel⟩ := ih
    obtain ⟨s', hs', hss'⟩ := (w.acts as).act_grows a i s hs
    obtain ⟨t', ht', htt'⟩ := (w.acts as).act_grows a j t ht
    rw [← acts_snoc] at hs' ht'
    exact ⟨s', t', hs', ht', by rw [htt'.level, hss'.level, hlevel]⟩

/-- What is done later takes no fork back. -/
theorem Forked.append (h : Forked w as i j) (bs : List Act) : Forked w (as ++ bs) i j := by
  induction bs generalizing as with
  | nil => rwa [List.append_nil]
  | cons b bs ih =>
    rw [List.append_cons]
    exact ih (h.later b)

theorem Encloses.level_lt (h : Encloses w as i j) (hs : (w.acts as).scopes[i]? = some s)
    (ht : (w.acts as).scopes[j]? = some t) : s.level < t.level := by
  induction h generalizing t with
  | single h =>
    obtain ⟨s', t', hs', ht', hlevel⟩ := h.level
    cases hs.symm.trans hs'
    cases ht.symm.trans ht'
    omega
  | tail _ h ih =>
    obtain ⟨r, t', hr, ht', hlevel⟩ := h.level
    cases ht.symm.trans ht'
    have hlt := ih hr
    omega

end Enclosing

/-- A new session with its outermost scope. -/
def outset (config : Config) : World := empty.next (.start config)

theorem partitioned_acts (config : Config) (as : List Act) :
    ∀ s ∈ ((outset config).acts as).scopes, s.Partitioned := by
  refine acts_invariant Scope.invariant_partitioned (fun s hs => ?_) as
  rw [List.mem_singleton.1 hs]
  exact Scope.invariant_partitioned.blank _ _ _ _

/-- Names are unambiguous: nodes share one only if they are one node of one level, or one truth
value. So whatever is done in a session, a scope binds different names, none of which a scope that
it encloses binds, and its definition binds the same ones. A definition that is lowered by a
computation in the scope binds different names, too, none of which an enclosing scope, the scope
itself or a definition that is lowered further in or out binds. -/
theorem names_unambiguous :
    (∀ (k l : Nat) (m n : NodeId), NodeId.smtName k m = NodeId.smtName l n ↔
      m = n ∧ (m.isTruthValue = true ∨ k = l)) ∧
    ∀ (config : Config) (as : List Act) (w : World), w = (outset config).acts as →
      ∀ (i : Nat) (s : Scope), w.scopes[i]? = some s →
        s.boundNames.Nodup ∧
        (∀ j t, Encloses (outset config) as i j → w.scopes[j]? = some t →
          s.boundNames.Disjoint t.boundNames) ∧
        (∀ context expected v d, s.finish.validate context expected = .ok v →
          Definition.ofTrace v = .ok d → d.boundNames = s.boundNames) ∧
        ∀ (c : Computation) (d : Definition) (k : Nat), c.LowersTo d (w.workspace s) k →
          d.boundNames.Nodup ∧
          (∀ j r, Encloses (outset config) as j i → w.scopes[j]? = some r →
            r.boundNames.Disjoint d.boundNames) ∧
          (outcome c.run (w.workspace s)).2.scope.boundNames.Disjoint d.boundNames ∧
          ∀ e l, c.LowersTo e (w.workspace s) l → k ≠ l → d.boundNames.Disjoint e.boundNames := by
  refine ⟨NodeId.smtName_eq_iff, ?_⟩
  rintro config as w rfl i s hs
  have hpartitioned {j : Nat} {r : Scope} (hr : ((outset config).acts as).scopes[j]? = some r) :
      r.Partitioned := partitioned_acts config as r (List.mem_of_getElem? hr)
  refine ⟨(hpartitioned hs).boundNames_nodup, fun j t hij ht => ?_,
    fun context expected v d hv hd => ?_, fun c d k hd => ?_⟩
  · exact (hpartitioned hs).disjoint_boundNames (Nat.ne_of_lt (hij.level_lt hs ht))
  · obtain ⟨-, -, output, -, rfl⟩ := Trace.validate_ok hv
    exact Definition.boundNames_eq hd
  · obtain ⟨u, hu, hlevel, hnames⟩ := hd.exists_scope
    obtain ⟨hafter, hkept⟩ := Scope.invariant_partitioned.relates.run c c.uses_true
      (((outset config).acts as).workspace s)
    change _ = s.level at hafter
    change u.level = s.level + k + 1 at hlevel
    rw [hnames]
    refine ⟨hu.boundNames_nodup, fun j r hji hr => ?_, ?_, fun e l he hkl => ?_⟩
    · have hlt := hji.level_lt hr hs
      exact (hpartitioned hr).disjoint_boundNames (by omega)
    · exact (hkept (hpartitioned hs)).disjoint_boundNames (by omega)
    · obtain ⟨v, -, hlevel', hnames'⟩ := he.exists_scope
      change v.level = s.level + l + 1 at hlevel'
      rw [hnames']
      exact hu.disjoint_boundNames (by omega)

/-- A parameter in a scope, in a fork of it and in a fork of that; the middle one has an output. -/
def nestedForks : List Act :=
  [.operate 0 (.input .universal "x" .int), .fork 0 .lambda,
    .operate 1 (.input .universal "y" .int), .operate 1 (.addOutput (.symbolic 2 .int 1)),
    .fork 1 .lambda, .operate 2 (.input .universal "z" .int)]

/-- The scope and its forks. -/
def nested : World := (outset {}).acts nestedForks

/-- A lambda within a lambda, each with a parameter that it returns. -/
def nestedLambdas : Computation :=
  .lower (.lambda .int)
    (withInput fun x => .lower (.lambda .int) (withInput .result) fun _ => .result x)
    fun _ => .abort (.user "lowered")
where
  withInput (next : Value → Computation) : Computation :=
    .operate (.input .universal "x" .int) fun x => next (x.toOption.join.getD (.bool false))

/-- Lambdas in the middle scope, the outer one with the name of the innermost scope, which does not
enclose it. -/
theorem names_unambiguous_nestedForks :
    ∃ (r s t : Scope) (d e f : Definition), nested.scopes = [r, s, t] ∧
      Encloses (outset {}) nestedForks 0 1 ∧ Encloses (outset {}) nestedForks 1 2 ∧
      (∃ v, s.finish.validate "lambda" .int = .ok v ∧ Definition.ofTrace v = .ok d) ∧
      nestedLambdas.LowersTo e (nested.workspace s) 0 ∧
      nestedLambdas.LowersTo f (nested.workspace s) 1 ∧
      t.boundNames = ["l2_s2"] ∧ d.boundNames = ["l1_s2"] ∧ e.boundNames = ["l2_s2"] ∧
      d.boundNames = s.boundNames ∧ s.boundNames.Disjoint t.boundNames ∧
      r.boundNames.Disjoint e.boundNames ∧ e.boundNames.Disjoint f.boundNames := by
  let v (level : Nat) : ValidTrace := ⟨level, .nearestEven, [(2, .int)], [], [], 2, .int, []⟩
  let d (name : String) : Definition := ⟨[], [(name, .int)], [], name⟩
  obtain ⟨r, s, t, hscopes, hs⟩ :
      ∃ r s t, nested.scopes = [r, s, t] ∧ s = nested.scopes.getD 1 default := ⟨_, _, _, rfl, rfl⟩
  have houter : Encloses (outset {}) nestedForks 0 1 := by
    have hfork := Forked.fork (w := outset {}) (nestedForks.take 1) 0 .lambda rfl rfl
    exact .single (hfork.append (nestedForks.drop 2))
  have hinner : Encloses (outset {}) nestedForks 1 2 := by
    have hfork := Forked.fork (w := outset {}) (nestedForks.take 4) 1 .lambda rfl rfl
    exact .single (hfork.append (nestedForks.drop 5))
  have hv : s.finish.validate "lambda" .int = .ok (v 1) := by
    rw [hs]
    decide +kernel
  have hd : Definition.ofTrace (v 1) = .ok (d "l1_s2") := by decide +kernel
  have he : nestedLambdas.LowersTo (d "l2_s2") (nested.workspace s) 0 := by
    rw [hs]
    exact .here (v := v 2) rfl (by decide +kernel) (by decide +kernel)
  have hf : nestedLambdas.LowersTo (d "l3_s2") (nested.workspace s) 1 := by
    rw [hs]
    exact .within rfl (.operate rfl (.here (v := v 3) rfl (by decide +kernel) (by decide +kernel)))
  have ht : nested.scopes.getLast?.map Scope.boundNames = some ["l2_s2"] := by decide +kernel
  have hget (i : Nat) : nested.scopes[i]? = [r, s, t][i]? := by rw [hscopes]
  obtain ⟨-, hbelow, hnames, hlowered⟩ := names_unambiguous.2 {} nestedForks nested rfl 1 s (hget 1)
  obtain ⟨-, habove, -, hdepth⟩ := hlowered nestedLambdas _ 0 he
  rw [hscopes] at ht
  exact ⟨r, s, t, d "l1_s2", d "l2_s2", d "l3_s2", hscopes, houter, hinner, ⟨v 1, hv, hd⟩, he, hf,
    Option.some.inj ht, rfl, rfl, hnames _ _ _ _ hv hd, hbelow 2 t hinner (hget 2),
    habove 0 r houter (hget 0), hdepth _ 1 hf (by decide)⟩

end World

end SmtLowering
