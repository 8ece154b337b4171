import SmtLowering.Proofs.Recorded

/-!
# What operations record

An operation records constants, expressions, inputs, at most one table and other artifacts, one at
a time. What survives each of these survives the operation, whatever its operands are and also
where it fails (`Operation.Stable.scopeStep`).
-/

namespace SmtLowering

namespace Operation

/-- The operation may apply the operator: a function by an application alone, a table by a
look-up. -/
def Interns (o : Operation) : Op → Prop
  | .apply f => ∃ result args, o = .apply f result args
  | .table _ => ∃ entries index fallback, o = .lookup entries index fallback
  | _ => True

/-- The property survives whatever the operation may record in a scope. A table has the number that
is next. -/
structure Stable (o : Operation) (w : Workspace) (I : Scope → Prop) : Prop where
  constant {s : Scope} (c : Literal) : I s → I (s.constant c).2
  intern {s : Scope} (e : Expr) (k : Kind) : o.Interns e.op → I s → I (s.intern e k).2
  addInput {s : Scope} (role : InputRole) (name : String) (k : Kind) :
    I s → I (s.addInput role name k)
  table {s : Scope} {entries : List Value} {index fallback : Value} (ns : List NodeId) :
    o = .lookup entries index fallback → needsTable entries index fallback = true → I s →
    I { s with tables := s.tables ++ [⟨w.takeTableId.1, index.kind, fallback.kind, ns⟩] }
  artifacts {s : Scope} (arrays : List ArrayDecl) (codeSegments : List CodeSegment)
    (observables constraints assertions : List Labelled) (outputs : List NodeId) : I s →
    I { s with arrays, codeSegments, observables, constraints, assertions, outputs }

end Operation

namespace Build

variable {o : Operation} {w : Workspace} {I : Scope → Prop} {s : Scope}

/-- The step keeps the property, and nothing is asked of its result. -/
abbrev Preserves {α : Type} (I : Scope → Prop) (m : Build α) (s : Scope) : Prop :=
  Keeps I m s fun _ _ => True

section Steps

variable (h : o.Stable w I) (hs : I s)
include h hs

theorem preserves_materialize (v : Value) : Preserves I (materialize v) s := by
  cases v with
  | concrete c => exact ⟨Scope.constant_grows s c, h.constant c hs, fun _ _ => trivial⟩
  | symbolic m k number =>
    refine (keeps_get hs).bind fun t' t _ ht _ => ?_
    split_ifs
    · exact keeps_pure ht trivial
    · exact keeps_throw ht _

theorem preserves_materializeAll (vs : List Value) : Preserves I (vs.mapM materialize) s := by
  induction vs generalizing s with
  | nil => exact keeps_pure hs trivial
  | cons v vs ih =>
    rw [List.mapM_cons]
    refine (preserves_materialize h hs v).bind fun n t _ ht _ => (ih ht).bind fun ns u _ hu _ => ?_
    exact keeps_pure hu trivial

theorem preserves_intern (e : Expr) (k : Kind) (he : o.Interns e.op) :
    Preserves I (intern e k) s :=
  ⟨Scope.intern_grows s e k, h.intern e k he hs, fun _ _ => trivial⟩

theorem preserves_node {op : Op} {domain : Kind} {vs : List Value} {k : Kind}
    (hop : o.Interns op) : Preserves I (Plan.node op domain vs k).exec s :=
  (preserves_materializeAll h hs vs).bind fun _ _ _ ht _ => preserves_intern h ht _ k hop

theorem preserves_primitive (p : Primitive) : Preserves I p.plan.exec s := by
  have hw := p.plan_within
  cases hp : p.plan with
  | give v => exact keeps_pure hs trivial
  | refuse f => exact keeps_throw hs f
  | node op domain vs k =>
    rw [hp] at hw
    refine preserves_node h hs ?_
    cases op with
    | apply f | table id => cases hw.2.1
    | _ => trivial

theorem preserves_all (vs : List Value) : Preserves I (all vs) s := by
  suffices ∀ acc, Preserves I (vs.foldlM and acc) s from this _
  induction vs generalizing s with
  | nil => exact fun acc => keeps_pure hs trivial
  | cons v vs ih =>
    intro acc
    rw [List.foldlM_cons, ← Plan.exec_and]
    exact (preserves_primitive h hs (.and acc v)).bind fun _ _ _ ht _ => ih ht _

theorem preserves_applyKnown (known : Option Signature) {name : String} {result : Kind}
    {args : List Value} (ho : o = .apply name result args) :
    Preserves I (applyKnown known name result args) s := by
  have hnode : Preserves I
      (Plan.node (.apply name) (Work.applicationDomain result args) args result).exec s :=
    preserves_node h hs ⟨result, args, ho⟩
  unfold applyKnown
  rcases known with _ | declared
  · exact hnode
  · simp only
    split_ifs
    · exact hnode
    · exact keeps_throw hs _

theorem preserves_tabulate {entries : List Value} {index fallback : Value}
    (ho : o = .lookup entries index fallback)
    (hn : Operation.needsTable entries index fallback = true) :
    Preserves I (tabulate w.takeTableId.1 entries index fallback) s := by
  refine (preserves_materializeAll h hs entries).bind fun ns t _ ht _ => ?_
  have hg : t.Grows
      { t with tables := t.tables ++ [⟨w.takeTableId.1, index.kind, fallback.kind, ns⟩] } :=
    { Scope.Grows.refl t with tables := List.prefix_append _ _ }
  refine (keeps_modify (P := fun _ _ => True) hg (h.table ns ho hn ht) trivial).bind
    fun _ u _ hu _ => (preserves_materialize h hu index).bind fun _ u' _ hu' _ =>
      (preserves_materialize h hu' fallback).bind fun _ u'' _ hu'' _ => ?_
  exact preserves_intern h hu'' _ _ ⟨entries, index, fallback, ho⟩

theorem preserves_lookupAt {entries : List Value} {index fallback : Value}
    (ho : o = .lookup entries index fallback) :
    Preserves I (lookupAt w.takeTableId.1 entries index fallback) s := by
  refine (keeps_require hs _ _ _).bind fun _ t _ ht hts => ?_
  obtain ⟨rfl, hk⟩ := hts
  split
  · exact keeps_throw ht _
  · next hfind =>
    split
    · exact keeps_pure ht trivial
    · next hindex =>
      refine preserves_tabulate h ht ho ?_
      simp only [Operation.needsTable, hk, hfind, hindex, Option.isNone_none, Bool.and_self]

theorem preserves_declareArray (id : Nat) (name : String) (key value : Kind) :
    Preserves I (declareArray id name key value) s := by
  have hg : s.Grows { s with arrays := s.arrays ++ [⟨id, name, key, value⟩] } :=
    { Scope.Grows.refl s with arrays := List.prefix_append _ _ }
  refine (keeps_modify (P := fun _ _ => True) hg (h.artifacts _ _ _ _ _ _ hs) trivial).bind
    fun _ t _ ht _ => ?_
  exact preserves_intern h ht _ _ trivial

/-- What is labelled is put behind what is there. -/
theorem preserves_labelled (label : String) (v : Value) (record : Labelled → Scope → Scope)
    (hr : ∀ l t, I t → t.Grows (record l t) ∧ I (record l t)) :
    Preserves I (do let l ← labelled label v; modify (record l)) s := by
  have hl : Preserves I (labelled label v) s :=
    (preserves_materialize h hs v).bind fun _ _ _ ht _ => keeps_pure ht trivial
  refine hl.bind fun l t _ ht _ => ?_
  obtain ⟨hg, hi⟩ := hr l t ht
  exact keeps_modify hg hi trivial

theorem preserves_observe (label : String) (v : Value) : Preserves I (observe label v) s :=
  preserves_labelled h hs label v (fun l t => { t with observables := t.observables ++ [l] })
    fun _ t ht => ⟨{ Scope.Grows.refl t with observables := List.prefix_append _ _ },
      h.artifacts _ _ _ _ _ _ ht⟩

theorem preserves_constrain (label : String) (v : Value) : Preserves I (constrain label v) s := by
  refine (keeps_require hs _ _ _).bind fun _ t _ ht _ => ?_
  split_ifs
  · exact keeps_pure ht trivial
  · exact preserves_labelled h ht label v
      (fun l t => { t with constraints := t.constraints ++ [l] }) fun _ t ht =>
        ⟨{ Scope.Grows.refl t with constraints := List.prefix_append _ _ },
          h.artifacts _ _ _ _ _ _ ht⟩

theorem preserves_assert (label : String) (v : Value) : Preserves I (Build.assert label v) s := by
  refine (keeps_require hs _ _ _).bind fun _ t _ ht _ => ?_
  split_ifs
  · exact keeps_pure ht trivial
  · exact preserves_labelled h ht label v
      (fun l t => { t with assertions := t.assertions ++ [l] }) fun _ t ht =>
        ⟨{ Scope.Grows.refl t with assertions := List.prefix_append _ _ },
          h.artifacts _ _ _ _ _ _ ht⟩

theorem preserves_addOutput (v : Value) : Preserves I (addOutput v) s := by
  refine (preserves_materialize h hs v).bind fun n t _ ht _ => ?_
  have hg : t.Grows { t with outputs := t.outputs ++ [n] } :=
    { Scope.Grows.refl t with outputs := List.prefix_append _ _ }
  exact (keeps_modify (P := fun _ _ => True) hg (h.artifacts _ _ _ _ _ _ ht) trivial).bind
    fun _ _ _ hu _ => keeps_pure hu trivial

theorem preserves_addCodeSegment (function : String) (lines : List String) :
    Preserves I (addCodeSegment function lines) s :=
  keeps_modify { Scope.Grows.refl s with codeSegments := List.prefix_append _ _ }
    (h.artifacts _ _ _ _ _ _ hs) trivial

end Steps

end Build

namespace Operation

open Build

variable {o : Operation} {w : Workspace} {I : Scope → Prop} {s : Scope}

/-- What survives each thing that an operation may record survives the operation. -/
theorem Stable.scopeStep (h : o.Stable w I) (hs : I s) : Preserves I (o.scopeStep w) s := by
  have map_ {α β : Type} {f : α → β} {m : Build α} (hm : Preserves I m s) :
      Preserves I (f <$> m) s := hm.map fun _ _ _ _ _ => trivial
  cases o with
  | primitive p => exact map_ (preserves_primitive h hs p)
  | all vs => exact map_ (preserves_all h hs vs)
  | input role name kind =>
    exact map_ ⟨Scope.addInput_grows s role name kind, h.addInput role name kind hs,
      fun _ _ => trivial⟩
  | apply name result args => exact map_ (preserves_applyKnown h hs _ rfl)
  | lookup entries index fallback => exact map_ (preserves_lookupAt h hs rfl)
  | newArray name key value => exact map_ (preserves_declareArray h hs _ name key value)
  | materialize v => exact map_ (preserves_materialize h hs v)
  | observe label v => exact map_ (preserves_observe h hs label v)
  | constrain label v => exact map_ (preserves_constrain h hs label v)
  | assert label v => exact map_ (preserves_assert h hs label v)
  | addOutput v => exact map_ (preserves_addOutput h hs v)
  | addCodeSegment function lines => exact map_ (preserves_addCodeSegment h hs function lines)
  | registerDefinition sig d => exact keeps_pure hs trivial
  | addAxiom text => exact keeps_pure hs trivial
  | forgetUninterpreted name => exact keeps_pure hs trivial

/-- An operation only adds to the scope. -/
theorem scopeStep_grows (o : Operation) (w : Workspace) :
    w.scope.Grows (outcome (o.scopeStep w) w.scope).2 := by
  have hany : o.Stable w fun _ => True :=
    ⟨fun _ _ => trivial, fun _ _ _ _ => trivial, fun _ _ _ _ => trivial, fun _ _ _ _ => trivial,
      fun _ _ _ _ _ _ _ => trivial⟩
  exact (hany.scopeStep trivial).1

end Operation

end SmtLowering
