import SmtLowering.Proofs.Computation
import SmtLowering.Proofs.Records
import SmtLowering.Proofs.Registries
import SmtLowering.Proofs.Validation

/-!
# Names that a session knows

A scope applies only names that its session knows: those that an application declared, and those
that have a definition. `Workspace.Orderly` adds to this what holds of the definitions and axioms
that are registered: what they apply is known, and a definition's own registry held it before, or an
application had declared it. Every operation and every lowering leaves a workspace orderly
(`Computation.run_orderly`).

A named function's computation defines functions in a copy of the registry, which is dropped. What
it defines there remains unknown outside; such names are those of `L`.
-/

namespace SmtLowering

/-- Every function that an expression of the scope applies is one of `K`. -/
def Scope.AppliesOnly (K : String → Prop) (s : Scope) : Prop :=
  ∀ p ∈ s.assignments, ∀ f, p.2.appliedName? = some f → K f

/-- The operation writes a definition, an axiom or a signature by itself. -/
def Operation.writesRegistry : Operation → Bool
  | .registerDefinition .. | .addAxiom _ | .forgetUninterpreted _ => true
  | _ => false

namespace Workspace

section Names

variable (w : Workspace)

/-- An application has declared the name. -/
def IsUninterpreted (f : String) : Prop := (w.uninterpreted.find? f).isSome

def Defines (f : String) : Prop := ∃ d ∈ w.definitions, d.name = f

def Knows (f : String) : Prop := w.IsUninterpreted f ∨ w.Defines f

/-- The session has the branches that the scope names. -/
structure InRange : Prop where
  uninterpreted : w.scope.branches.uninterpreted < w.session.uninterpreted.contents.length
  userFunctions : w.scope.branches.userFunctions < w.session.userFunctions.contents.length
  definitions : w.scope.branches.definitions < w.session.definitions.contents.length
  axioms : w.scope.branches.axioms < w.session.axioms.contents.length

variable (L : String → Prop)

structure Orderly : Prop where
  inRange : w.InRange
  applied : w.scope.AppliesOnly w.Knows
  callable : ∀ f, (w.userFunctions.find? f).isSome ↔ w.Defines f
  nodup : (w.definitions.map (·.name)).Nodup
  /-- A definition applies itself, earlier ones, names that were declared first and those of `L`. -/
  definitions : ∀ i d, w.definitions[i]? = some d → (∃ t, d.Spells t) ∧
    ∀ f ∈ d.applied, f = d.name ∨ (∃ e ∈ w.definitions.take i, e.name = f) ∨
      w.IsUninterpreted f ∨ L f
  /-- Axioms are added at the outermost level, where what they apply is known. -/
  axioms : w.scope.level = 0 → ∀ a ∈ w.axioms, ∃ (t : ValidTrace) (label : String),
    t.NamesFree ∧ t.constraintText label = .ok a ∧ ∀ f, t.Applies f → w.Knows f

end Names

/-- The registries of `w` are those of `w'`, which may have more uninterpreted functions. -/
structure Retains (w w' : Workspace) : Prop where
  level : w'.scope.level = w.scope.level
  branches : w'.scope.branches = w.scope.branches
  inRange : w'.InRange
  uninterpreted : ∀ f, w.IsUninterpreted f → w'.IsUninterpreted f
  userFunctions : w'.userFunctions = w.userFunctions
  definitions : w'.definitions = w.definitions
  axioms : w'.axioms = w.axioms
  otherFunctions :
    w.session.userFunctions.Framed w.scope.branches.userFunctions w'.session.userFunctions
  otherDefinitions :
    w.session.definitions.Framed w.scope.branches.definitions w'.session.definitions

/-- From `w` to `w'` only definitions of names in `N` are added, none of them in another branch, and
axioms at the outermost level. -/
structure Steps (N : String → Prop) (w w' : Workspace) : Prop where
  level : w'.scope.level = w.scope.level
  branches : w'.scope.branches = w.scope.branches
  uninterpreted : ∀ f, w.IsUninterpreted f → w'.IsUninterpreted f
  definitions : w.definitions <+: w'.definitions
  added : ∀ d ∈ w'.definitions, d ∈ w.definitions ∨ N d.name
  axioms : w.scope.level ≠ 0 → w'.axioms = w.axioms
  otherFunctions :
    w.session.userFunctions.Framed w.scope.branches.userFunctions w'.session.userFunctions
  otherDefinitions :
    w.session.definitions.Framed w.scope.branches.definitions w'.session.definitions

variable {L N N' : String → Prop} {w w' w'' : Workspace}

theorem Steps.refl (w : Workspace) : w.Steps N w where
  level := rfl
  branches := rfl
  uninterpreted _ h := h
  definitions := List.prefix_rfl
  added _ h := .inl h
  axioms _ := rfl
  otherFunctions := .refl _ _
  otherDefinitions := .refl _ _

theorem Steps.trans (h : w.Steps N w') (h' : w'.Steps N w'') : w.Steps N w'' where
  level := h'.level.trans h.level
  branches := h'.branches.trans h.branches
  uninterpreted f hf := h'.uninterpreted f (h.uninterpreted f hf)
  definitions := h.definitions.trans h'.definitions
  added d hd := (h'.added d hd).elim (h.added d) .inr
  axioms hl := (h'.axioms (h.level ▸ hl)).trans (h.axioms hl)
  otherFunctions := h.otherFunctions.trans (h.branches ▸ h'.otherFunctions)
  otherDefinitions := h.otherDefinitions.trans (h.branches ▸ h'.otherDefinitions)

theorem Steps.mono (h : w.Steps N w') (hN : ∀ f, N f → N' f) : w.Steps N' w' :=
  { h with added := fun d hd => (h.added d hd).imp_right (hN _) }

theorem Steps.knows (h : w.Steps N w') {f : String} (hf : w.Knows f) : w'.Knows f := by
  rcases hf with hf | ⟨d, hd, hf⟩
  · exact .inl (h.uninterpreted f hf)
  · exact .inr ⟨d, h.definitions.subset hd, hf⟩

theorem Retains.steps (h : w.Retains w') : w.Steps N w' where
  level := h.level
  branches := h.branches
  uninterpreted := h.uninterpreted
  definitions := h.definitions ▸ List.prefix_rfl
  added _ hd := .inl (h.definitions ▸ hd)
  axioms _ := h.axioms
  otherFunctions := h.otherFunctions
  otherDefinitions := h.otherDefinitions

theorem Retains.defines (h : w.Retains w') (f : String) : w'.Defines f ↔ w.Defines f := by
  unfold Defines
  rw [h.definitions]

theorem Retains.knows (h : w.Retains w') {f : String} (hf : w.Knows f) : w'.Knows f :=
  (h.steps (N := fun _ => False)).knows hf

/-- A workspace whose registries are retained stays orderly as long as its scope's names are
known. -/
theorem Orderly.retain (h : w.Orderly L) (hr : w.Retains w')
    (ha : w'.scope.AppliesOnly w'.Knows) : w'.Orderly L where
  inRange := hr.inRange
  applied := ha
  callable f := by
    rw [hr.userFunctions, hr.defines]
    exact h.callable f
  nodup := hr.definitions ▸ h.nodup
  definitions i d hd := by
    rw [hr.definitions] at hd ⊢
    refine ⟨(h.definitions i d hd).1, fun f hf => ?_⟩
    exact ((h.definitions i d hd).2 f hf).imp_right
      (Or.imp_right (Or.imp_left (hr.uninterpreted f)))
  axioms hl a ha := by
    rw [hr.axioms] at ha
    obtain ⟨t, label, hfree, ht, hk⟩ := h.axioms (hr.level ▸ hl) a ha
    exact ⟨t, label, hfree, ht, fun f hf => hr.knows (hk f hf)⟩

section Writing

theorem InRange.definitions_register (h : w.InRange) (sig : Signature) (d : Declaration) :
    (w.registerDefinition sig d).definitions = w.definitions ++ [d] :=
  Branches.get_update_self _ h.definitions _

/-- A registration defines its name and does nothing else. -/
theorem InRange.steps_register (h : w.InRange) (sig : Signature) (d : Declaration) :
    w.Steps (· = d.name) (w.registerDefinition sig d) := by
  refine ⟨rfl, rfl, fun _ h => h, ?_, ?_, fun _ => rfl, Branches.framed_update _ _,
    Branches.framed_update _ _⟩
  · rw [h.definitions_register]
    exact List.prefix_append _ _
  · rw [h.definitions_register]
    intro e he
    rw [List.mem_append, List.mem_singleton] at he
    exact he.imp_right (congrArg Declaration.name)

theorem Orderly.register (h : w.Orderly L) {d : Declaration} (hnew : ¬w.Defines d.name)
    (hd : ∃ t, d.Spells t) (happlied : ∀ f ∈ d.applied, f = d.name ∨ w.Knows f ∨ L f)
    (sig : Signature) :
    (w.registerDefinition sig d).Orderly L ∧ w.Steps (· = d.name) (w.registerDefinition sig d) := by
  have hdefs := h.inRange.definitions_register sig d
  have hsteps := h.inRange.steps_register sig d
  have hfuns : (w.registerDefinition sig d).userFunctions = w.userFunctions.insert d.name sig :=
    Branches.get_update_self _ h.inRange.userFunctions _
  have hrange : (w.registerDefinition sig d).InRange := by
    refine ⟨h.inRange.uninterpreted, ?_, ?_, h.inRange.axioms⟩
    · exact Nat.lt_of_lt_of_le h.inRange.userFunctions hsteps.otherFunctions.length_le
    · exact Nat.lt_of_lt_of_le h.inRange.definitions hsteps.otherDefinitions.length_le
  refine ⟨⟨hrange, ?_, ?_, ?_, ?_, ?_⟩, hsteps⟩
  · exact fun p hp f hf => hsteps.knows (h.applied p hp f hf)
  · intro f
    rw [hfuns, NameTable.isSome_find?_insert, h.callable]
    simp only [Defines, hdefs, List.mem_append, List.mem_singleton]
    constructor
    · rintro (rfl | ⟨e, he, rfl⟩)
      · exact ⟨d, .inr rfl, rfl⟩
      · exact ⟨e, .inl he, rfl⟩
    · rintro ⟨e, he | rfl, rfl⟩
      · exact .inr ⟨e, he, rfl⟩
      · exact .inl rfl
  · rw [hdefs, List.map_append, List.map_singleton]
    refine List.nodup_append.2 ⟨h.nodup, by simp, ?_⟩
    rintro f hf g hg rfl
    rw [List.mem_singleton] at hg
    obtain ⟨e, he, hname⟩ := List.mem_map.1 hf
    exact hnew ⟨e, he, hname.trans hg⟩
  · intro i e hi
    rw [hdefs] at hi ⊢
    rcases Scope.getElem?_snoc hi with hi | ⟨rfl, rfl⟩
    · rw [List.take_append_of_le_length (Nat.le_of_lt (List.getElem?_eq_some_iff.1 hi).1)]
      exact h.definitions i e hi
    · refine ⟨hd, fun f hf => ?_⟩
      rw [List.take_left]
      rcases happlied f hf with hf | (hf | hf) | hf
      · exact .inl hf
      · exact .inr (.inr (.inl hf))
      · exact .inr (.inl hf)
      · exact .inr (.inr (.inr hf))
  · intro hl a ha
    obtain ⟨t, label, hfree, ht, hk⟩ := h.axioms hl a ha
    exact ⟨t, label, hfree, ht, fun f hf => hsteps.knows (hk f hf)⟩

theorem Orderly.addAxiom (h : w.Orderly L) (hl : w.scope.level = 0) {a : String}
    (ha : ∃ (t : ValidTrace) (label : String),
      t.NamesFree ∧ t.constraintText label = .ok a ∧ ∀ f, t.Applies f → w.Knows f) :
    (w.addAxiom a).Orderly L ∧ w.Steps N (w.addAxiom a) := by
  have haxioms : (w.addAxiom a).axioms = w.axioms ++ [a] :=
    Branches.get_update_self _ h.inRange.axioms _
  refine ⟨⟨⟨h.inRange.uninterpreted, h.inRange.userFunctions, h.inRange.definitions, ?_⟩, h.applied,
    h.callable, h.nodup, h.definitions, fun _ b hb => ?_⟩,
    ⟨rfl, rfl, fun _ h => h, List.prefix_rfl, fun _ h => .inl h, fun hne => (hne hl).elim,
      .refl _ _, .refl _ _⟩⟩
  · exact Nat.lt_of_lt_of_eq h.inRange.axioms (Branches.length_update _ _ _).symm
  · rw [haxioms, List.mem_append, List.mem_singleton] at hb
    rcases hb with hb | rfl
    · exact h.axioms hl b hb
    · exact ha

/-- Forgetting a name that `w` did not have leaves what `w` had. -/
theorem Retains.forget (h : w.Retains w') {name : String} (hname : ¬w.IsUninterpreted name) :
    w.Retains (w'.forgetUninterpreted name) := by
  have hget : (w'.forgetUninterpreted name).uninterpreted = w'.uninterpreted.erase name :=
    Branches.get_update_self _ h.inRange.uninterpreted _
  refine { h with inRange := { h.inRange with uninterpreted := ?_ }, uninterpreted := ?_ }
  · exact Nat.lt_of_lt_of_eq h.inRange.uninterpreted (Branches.length_update _ _ _).symm
  · intro f hf
    have hne : f ≠ name := fun he => hname (he ▸ hf)
    unfold IsUninterpreted
    rw [hget, NameTable.find?_erase_ne _ hne]
    exact h.uninterpreted f hf

end Writing

end Workspace

section Operations

variable {L N : String → Prop} {w : Workspace} {o : Operation}

theorem Scope.constant_assignments (s : Scope) (c : Literal) :
    (s.constant c).2.assignments = s.assignments := by
  rcases h : s.constIds.lookup c with _ | n
  · rw [Scope.constant_of_lookup_none h]
  · rw [Scope.constant_of_lookup h]

/-- Only an application adds to the names that a scope applies. -/
theorem Operation.stable_appliesOnly {K : String → Prop}
    (hK : ∀ f result args, o = .apply f result args → K f) : o.Stable w (Scope.AppliesOnly K) where
  constant {s} c hs := by
    unfold Scope.AppliesOnly
    rw [s.constant_assignments]
    exact hs
  intern {s} e k he hs := by
    rcases hl : s.exprIds.lookup e with _ | n
    · rw [Scope.intern_of_lookup_none hl]
      intro p hp f hf
      rcases List.mem_append.1 hp with hp | hp
      · exact hs p hp f hf
      · rw [List.mem_singleton] at hp
        subst hp
        cases hop : e.op with
        | apply g =>
          simp only [Expr.appliedName?, hop, Option.some.injEq] at hf
          subst hf
          rw [hop] at he
          obtain ⟨result, args, ho⟩ := he
          exact hK g result args ho
        | _ => simp [Expr.appliedName?, hop] at hf
    · rw [Scope.intern_of_lookup hl]
      exact hs
  addInput _ _ _ hs := hs
  table _ _ _ hs := hs
  artifacts _ _ _ _ _ _ hs := hs

/-- An operation that writes no registry by itself may declare the name that it applies. -/
theorem Operation.sessionAfter_cases (ho : o.writesRegistry = false) :
    (o.sessionAfter w).userFunctions = w.session.userFunctions ∧
      (o.sessionAfter w).definitions = w.session.definitions ∧
      (o.sessionAfter w).axioms = w.session.axioms ∧
      ((o.sessionAfter w).uninterpreted = w.session.uninterpreted ∧
          (∀ f result args, o = .apply f result args → (w.signature? f).isSome) ∨
        ∃ f result args, o = .apply f result args ∧ (o.sessionAfter w).uninterpreted =
          w.session.uninterpreted.update w.scope.branches.uninterpreted
            (·.insert f ⟨args.map Value.kind, result⟩)) := by
  cases o with
  | apply name result args =>
    simp only [sessionAfter]
    rcases hs : w.signature? name with _ | sig
    · exact ⟨rfl, rfl, rfl, .inr ⟨name, result, args, rfl, rfl⟩⟩
    · refine ⟨rfl, rfl, rfl, .inl ⟨rfl, ?_⟩⟩
      rintro f _ _ ⟨⟩
      rw [hs]
      rfl
  | lookup entries index fallback =>
    simp only [sessionAfter]
    split_ifs <;> exact ⟨rfl, rfl, rfl, .inl ⟨rfl, fun _ _ _ h => by cases h⟩⟩
  | registerDefinition | addAxiom | forgetUninterpreted => cases ho
  | _ => exact ⟨rfl, rfl, rfl, .inl ⟨rfl, fun _ _ _ h => by cases h⟩⟩

theorem Workspace.Orderly.knows_of_signature? (h : w.Orderly L) {f : String}
    (hf : (w.signature? f).isSome) : w.Knows f := by
  rw [Workspace.signature?, Option.isSome_or, Bool.or_eq_true] at hf
  rcases hf with hf | hf
  · exact .inr ((h.callable f).1 hf)
  · exact .inl hf

/-- An operation keeps the registries, but for the name that it applies. -/
theorem Workspace.Orderly.operate_retains (h : w.Orderly L) (ho : o.writesRegistry = false)
    {t : Scope} (hg : w.scope.Grows t) :
    w.Retains ⟨o.sessionAfter w, t⟩ ∧
      ∀ f result args, o = .apply f result args → Workspace.Knows ⟨o.sessionAfter w, t⟩ f := by
  obtain ⟨hfuns, hdefs, haxioms, hun⟩ := Operation.sessionAfter_cases (w := w) ho
  have hlength : (o.sessionAfter w).uninterpreted.contents.length =
      w.session.uninterpreted.contents.length := by
    rcases hun with ⟨hun, -⟩ | ⟨g, result, args, -, hun⟩ <;> rw [hun]
    exact Branches.length_update _ _ _
  have hgrows (f : String) (hf : w.IsUninterpreted f) :
      Workspace.IsUninterpreted ⟨o.sessionAfter w, t⟩ f := by
    simp only [Workspace.IsUninterpreted, Workspace.uninterpreted, hg.branches]
    rcases hun with ⟨hun, -⟩ | ⟨g, result, args, -, hun⟩ <;> rw [hun]
    · exact hf
    · rw [Branches.get_update_self _ h.inRange.uninterpreted, NameTable.isSome_find?_insert]
      exact .inr hf
  have hr : w.Retains ⟨o.sessionAfter w, t⟩ := by
    refine ⟨hg.level, hg.branches, ?_, hgrows, ?_, ?_, ?_, ?_, ?_⟩
    · constructor <;> simp only [hg.branches, hlength, hfuns, hdefs, haxioms]
      · exact h.inRange.uninterpreted
      · exact h.inRange.userFunctions
      · exact h.inRange.definitions
      · exact h.inRange.axioms
    · simp only [Workspace.userFunctions, hg.branches, hfuns]
    · simp only [Workspace.definitions, hg.branches, hdefs]
    · simp only [Workspace.axioms, hg.branches, haxioms]
    · simp only [hfuns, Branches.Framed.refl]
    · simp only [hdefs, Branches.Framed.refl]
  refine ⟨hr, ?_⟩
  rintro f result args rfl
  rcases hun with ⟨-, hsome⟩ | ⟨g, result', args', ho, hun⟩
  · exact hr.knows (h.knows_of_signature? (hsome f result args rfl))
  · cases ho
    left
    simp only [Workspace.IsUninterpreted, Workspace.uninterpreted, hg.branches]
    rw [hun, Branches.get_update_self _ h.inRange.uninterpreted, NameTable.isSome_find?_insert]
    exact .inl rfl

theorem Workspace.Orderly.operate (h : w.Orderly L) (ho : o.writesRegistry = false) :
    (outcome o.run w).2.Orderly L ∧ w.Steps N (outcome o.run w).2 := by
  rw [Operation.outcome_run]
  have hany : w.scope.AppliesOnly fun _ => True := fun _ _ _ _ => trivial
  have hg := ((Operation.stable_appliesOnly (o := o) fun _ _ _ _ => trivial).scopeStep
    (w := w) hany).1
  obtain ⟨hr, hknown⟩ := h.operate_retains ho hg
  have happlied := ((Operation.stable_appliesOnly hknown).scopeStep (w := w) fun p hp f hf =>
    hr.knows (h.applied p hp f hf)).2.1
  exact ⟨h.retain hr happlied, hr.steps⟩

end Operations

end SmtLowering
