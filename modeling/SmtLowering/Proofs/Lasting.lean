import SmtLowering.Proofs.Failures

/-!
# Lasting signatures

Unless a computation registers definitions on its own or forgets names, a name that it finds with a
signature keeps it, and a name that it makes callable has the signature at which it was applied
before (`Workspace.Remembers`, `Computation.run_remembers`). A lowering takes back the name that it
was to define only where nothing knew it.
-/

namespace SmtLowering

/-- The operation neither registers a definition nor forgets a name. -/
def Operation.keepsSignatures : Operation → Bool
  | .registerDefinition .. | .forgetUninterpreted _ => false
  | _ => true

namespace Workspace

section Remembers

/-- If the name is callable and was applied without a definition, then at one signature. -/
def Agrees (w : Workspace) (f : String) : Prop :=
  ∀ sig used, w.userFunctions.find? f = some sig → w.uninterpreted.find? f = some used → sig = used

/-- From `w` to `w'`, which are of one scope, no signature is lost or contradicted, and only names
of `N` become callable. -/
structure Remembers (N : String → Prop) (w w' : Workspace) : Prop where
  uninterpreted : ∀ f sig, w.uninterpreted.find? f = some sig → w'.uninterpreted.find? f = some sig
  callable : ∀ f sig, w.userFunctions.find? f = some sig → w'.userFunctions.find? f = some sig
  agrees : ∀ f, w.Agrees f → w'.Agrees f
  new : ∀ f, w.userFunctions.find? f = none → w'.userFunctions.find? f = none ∨ N f

variable {N : String → Prop} {w w' w'' : Workspace} {f : String}

/-- The two registries are the same. -/
theorem Remembers.of_same (hu : w'.uninterpreted = w.uninterpreted)
    (hf : w'.userFunctions = w.userFunctions) : w.Remembers N w' where
  uninterpreted _ _ h := hu ▸ h
  callable _ _ h := hf ▸ h
  agrees f h := by
    rw [Agrees, hu, hf]
    exact h
  new _ h := .inl (hf ▸ h)

theorem Remembers.refl (w : Workspace) : w.Remembers N w := .of_same rfl rfl

theorem Remembers.trans (h : w.Remembers N w') (h' : w'.Remembers N w'') : w.Remembers N w'' where
  uninterpreted f sig hf := h'.uninterpreted f sig (h.uninterpreted f sig hf)
  callable f sig hf := h'.callable f sig (h.callable f sig hf)
  agrees f hf := h'.agrees f (h.agrees f hf)
  new f hf := (h.new f hf).elim (h'.new f) .inr

/-- A signature lasts, also where the name becomes callable. -/
theorem Remembers.signature? (h : w.Remembers N w') {sig : Signature}
    (hf : w.signature? f = some sig) : w'.signature? f = some sig := by
  rw [Workspace.signature?, Option.or_eq_some_iff] at hf ⊢
  rcases hf with hf | ⟨hnone, hf⟩
  · exact .inl (h.callable f sig hf)
  · have hun := h.uninterpreted f sig hf
    rcases hc : w'.userFunctions.find? f with _ | sig'
    · exact .inr ⟨rfl, hun⟩
    · have hagrees : w.Agrees f := fun _ _ hs => by cases hnone.symm.trans hs
      rw [h.agrees f hagrees sig' sig hc hun]
      exact .inl rfl

theorem resume_eq {u : Workspace} (h : u.scope = w.scope) : w.resume u.session = u :=
  congrArg (Workspace.mk u.session) h.symm

/-- The scope's registries are those that it had before. -/
theorem Writes.inRange_after (h : w.Writes w') (hw : w.InRange) : w'.InRange := by
  have hrange : InRange ⟨w'.session, w.scope⟩ := h.inRange hw
  have hb := h.branches
  exact ⟨hb ▸ hrange.uninterpreted, hb ▸ hrange.userFunctions, hb ▸ hrange.definitions,
    hb ▸ hrange.axioms⟩

/-- A first application gives the name its signature, and is no definition. -/
theorem remembers_insert (hw : w.InRange) {name : String} {sig : Signature} {s : Scope}
    (hs : s.branches = w.scope.branches) (hname : w.signature? name = none) :
    w.Remembers N ⟨(w.mapUninterpreted (·.insert name sig)).session, s⟩ := by
  rw [Workspace.signature?, Option.or_eq_none_iff] at hname
  have hun : Workspace.uninterpreted ⟨(w.mapUninterpreted (·.insert name sig)).session, s⟩ =
      w.uninterpreted.insert name sig := by
    simp only [Workspace.uninterpreted, mapUninterpreted, hs]
    exact Branches.get_update_self _ hw.uninterpreted _
  have hfuns : Workspace.userFunctions ⟨(w.mapUninterpreted (·.insert name sig)).session, s⟩ =
      w.userFunctions := by
    simp only [Workspace.userFunctions, mapUninterpreted, hs]
  refine ⟨fun f used hf => ?_, fun f _ hf => hfuns ▸ hf, fun f hf => ?_,
    fun f hf => .inl (hfuns ▸ hf)⟩
  · have hne : f ≠ name := by
      rintro rfl
      cases hname.2.symm.trans hf
    rw [hun, NameTable.find?_insert_ne _ hne, hf]
  · rw [Agrees, hun, hfuns]
    intro used sig' hu hi
    have hne : f ≠ name := by
      rintro rfl
      cases hname.1.symm.trans hu
    rw [NameTable.find?_insert_ne _ hne] at hi
    exact hf used sig' hu hi

/-- A definition at the signature of the applications before it. -/
theorem remembers_register (hw : w.InRange) {d : Declaration} {sig : Signature}
    (hnew : w.userFunctions.find? d.name = none) (hN : N d.name)
    (hsig : ∀ used, w.uninterpreted.find? d.name = some used → used = sig) :
    w.Remembers N (w.registerDefinition sig d) := by
  have hfuns : (w.registerDefinition sig d).userFunctions = w.userFunctions.insert d.name sig :=
    Branches.get_update_self _ hw.userFunctions _
  refine ⟨fun _ _ h => h, fun f used hf => ?_, fun f hf => ?_, fun f hf => ?_⟩
  · have hne : f ≠ d.name := by
      rintro rfl
      cases hnew.symm.trans hf
    rw [hfuns, NameTable.find?_insert_ne _ hne, hf]
  · intro used sig' hu hi
    by_cases hne : f = d.name
    · subst hne
      rw [hfuns, NameTable.find?_insert_self] at hu
      cases hu
      exact (hsig _ hi).symm
    · rw [hfuns, NameTable.find?_insert_ne _ hne] at hu
      exact hf _ _ hu hi
  · by_cases hne : f = d.name
    · exact .inr (hne ▸ hN)
    · rw [hfuns, NameTable.find?_insert_ne _ hne]
      exact .inl hf

/-- A name that was not known at first is forgotten again. -/
theorem Remembers.forget (h : w.Remembers N w') (hw : w'.InRange) {name : String}
    (hname : w.uninterpreted.find? name = none) :
    w.Remembers N (w'.forgetUninterpreted name) := by
  have hun : (w'.forgetUninterpreted name).uninterpreted = w'.uninterpreted.erase name :=
    Branches.get_update_self _ hw.uninterpreted _
  refine ⟨fun f sig hf => ?_, h.callable, fun f hf sig used hs hu => ?_, h.new⟩
  · have hne : f ≠ name := by
      rintro rfl
      cases hname.symm.trans hf
    rw [hun, NameTable.find?_erase_ne _ hne]
    exact h.uninterpreted f sig hf
  · by_cases hne : f = name
    · subst hne
      rw [hun, NameTable.find?_erase_self] at hu
      cases hu
    · rw [hun, NameTable.find?_erase_ne _ hne] at hu
      exact h.agrees f hf sig used hs hu

end Remembers

end Workspace

section Runs

variable {N : String → Prop} {w : Workspace}

theorem Operation.run_remembers {o : Operation} (ho : o.keepsSignatures = true) (hw : w.InRange) :
    w.Remembers N (outcome o.run w).2 := by
  rw [outcome_run]
  have hb := (o.scopeStep_grows w).branches
  generalize (outcome (o.scopeStep w) w.scope).2 = s at hb ⊢
  have hsame (t : Session) (hu : t.uninterpreted = w.session.uninterpreted)
      (hf : t.userFunctions = w.session.userFunctions) : w.Remembers N ⟨t, s⟩ := by
    refine .of_same ?_ ?_
    · simp only [Workspace.uninterpreted, hu, hb]
    · simp only [Workspace.userFunctions, hf, hb]
  cases o with
  | apply name result args =>
    simp only [sessionAfter]
    rcases hs : w.signature? name with _ | sig
    · exact Workspace.remembers_insert hw hb hs
    · exact hsame _ rfl rfl
  | lookup entries index fallback =>
    simp only [sessionAfter]
    split_ifs <;> exact hsame _ rfl rfl
  | registerDefinition | forgetUninterpreted => cases ho
  | _ => exact hsame _ rfl rfl

section Forks

variable {purpose : Purpose} {child : Scope} {s : Session} {c : Workspace}

/-- Back in the parent, nothing is lost that the fork remembers. -/
theorem Workspace.Remembers.back (hw : w.InRange)
    (hf : w.session.fork w.scope purpose = .ok (child, s)) (hwrites : Workspace.Writes ⟨s, child⟩ c)
    (h : Workspace.Remembers N ⟨s, child⟩ c) : w.Remembers N (w.resume c.session) := by
  obtain ⟨⟨hbu, -⟩, ⟨hu, -⟩, hfuns, -⟩ := Session.fork_reads hw hf
  have hbranches : c.scope.branches = child.branches := hwrites.branches
  have hun₀ : Workspace.uninterpreted ⟨s, child⟩ = w.uninterpreted := by
    simp only [Workspace.uninterpreted, hbu, hu]
  have hun : (w.resume c.session).uninterpreted = c.uninterpreted := by
    simp only [Workspace.uninterpreted, resume, hbranches, hbu]
  have hagrees (f : String) : w.Agrees f ↔ Workspace.Agrees ⟨s, child⟩ f := by
    rw [Agrees, Agrees, hun₀, hfuns]
  have hunknown (f : String) (sig : Signature) (hf : w.uninterpreted.find? f = some sig) :
      (w.resume c.session).uninterpreted.find? f = some sig := by
    rw [hun]
    exact h.uninterpreted f sig (hun₀ ▸ hf)
  by_cases hp : purpose = .named
  · subst hp
    obtain ⟨hback, -⟩ := hwrites.named_back hw hf
    refine ⟨hunknown, fun f _ h => hback ▸ h, fun f hf sig used hs hu => ?_,
      fun f h => .inl (hback ▸ h)⟩
    rw [hback] at hs
    rw [hun] at hu
    exact h.agrees f ((hagrees f).1 hf) sig used (h.callable f sig (hfuns ▸ hs)) hu
  · obtain ⟨rfl, -, -⟩ := Session.fork_shared hf hp
    have hback : (w.resume c.session).userFunctions = c.userFunctions := by
      simp only [Workspace.userFunctions, resume, hbranches, Scope.blank_eq]
    refine ⟨hunknown, fun f sig hs => ?_, fun f hf => ?_, fun f hf => ?_⟩
    · rw [hback]
      exact h.callable f sig (hfuns ▸ hs)
    · rw [Agrees, hun, hback]
      exact h.agrees f ((hagrees f).1 hf)
    · rw [hback]
      exact h.new f (hfuns ▸ hf)

end Forks

namespace Target

/-- A definition is emitted at the signature at which the body applied its name. -/
theorem signature_of_emit {name : String} {k : Kind} {v : ValidTrace} {d : Declaration}
    (h : (function name k).emit w v = .ok d) :
    v.declaration name = .ok d ∧
      ∀ used, w.uninterpreted.find? name = some used → used = ⟨v.params.map Prod.snd, k⟩ := by
  rw [emit] at h
  rcases hu : w.uninterpreted.find? name with _ | used <;> simp only [hu] at h
  · exact ⟨mapError_eq_ok h, fun _ h => by cases h⟩
  · split_ifs at h with hsig
    refine ⟨mapError_eq_ok h, ?_⟩
    rintro _ ⟨⟩
    exact hsig

theorem withdraw_scope (t : Target) (w' : Workspace) (f : Fault LowerError) :
    (t.withdraw w w' f).scope = w'.scope := by
  cases t with
  | lambda k | constraint label => rfl
  | function name k =>
    rcases f with e | v
    · simp only [withdraw]
      split_ifs <;> rfl
    · rfl

theorem enter_scope (t : Target) (v : ValidTrace) (a : t.Result) :
    (t.enter w v a).scope = w.scope := by
  cases t <;> rfl

/-- What is withdrawn was not known before. -/
theorem remembers_withdraw {w' : Workspace} (h : w.Remembers N w') (hw : w'.InRange) (t : Target)
    (f : Fault LowerError) : w.Remembers N (t.withdraw w w' f) := by
  rcases f with e | v
  · rcases t.withdraw_cases w w' e with ⟨hwd, -⟩ | ⟨name, -, hname, hwd⟩ <;> rw [hwd]
    · exact h
    · exact h.forget hw hname
  · cases t with
    | lambda k | function name k | constraint label => exact h

/-- What is entered is a definition of a new name, at the signature of its applications, or an
axiom. -/
theorem remembers_enter (hw : w.InRange) {t : Target} {v : ValidTrace} {a : t.Result}
    (hnew : ∀ f, t.name? = some f → w.userFunctions.find? f = none ∧ N f)
    (h : t.emit w v = .ok a) : w.Remembers N (t.enter w v a) := by
  cases t with
  | lambda k => exact .refl w
  | constraint label => exact .of_same rfl rfl
  | function name k =>
    obtain ⟨hd, hsig⟩ := signature_of_emit h
    obtain ⟨hnone, hname⟩ := hnew name rfl
    obtain ⟨e, -, -, rfl⟩ := Declaration.exists_ofDefinition hd
    exact Workspace.remembers_register hw hnone hname hsig

end Target

theorem Computation.relates_remembers : RelatesNaming (·.keepsSignatures = true) N
    (fun w w' => w.Writes w' ∧ (w.InRange → w.Remembers N w')) where
  output _ := rfl
  refl w := ⟨.refl w, fun _ => .refl w⟩
  trans u v w huv hvw :=
    ⟨huv.1.trans hvw.1, fun hu => (huv.2 hu).trans (hvw.2 (huv.1.inRange_after hu))⟩
  operate o w ho := ⟨o.run_writes w, o.run_remembers ho⟩
  conclude t w child s c r ht ha h := by
    obtain ⟨hf, hnew⟩ := Target.start_eq_ok ha
    have hback : w.Writes ⟨c.session, w.scope⟩ := .of_fork hf h.1
    refine ⟨hback.trans (t.conclude_writes w r c), fun hw => ?_⟩
    have hremembers := (h.2 (World.fork_inRange hw hf)).back hw hf h.1
    have hrange : (w.resume c.session).InRange := hback.inRange hw
    rcases t.conclude_cases w r c with ⟨e, hc⟩ | ⟨v, a, he, -, hc⟩ <;> rw [hc]
    · have hend := Target.remembers_withdraw hremembers hrange t e
      rwa [← Workspace.resume_eq (Target.withdraw_scope t (w.resume c.session) e)] at hend
    · have hnamed (f : String) (hf : t.name? = some f) :
          (w.resume c.session).userFunctions.find? f = none ∧ N f := by
        refine ⟨?_, ht f hf⟩
        have hname := hnew f hf
        cases t with
        | function name k =>
          rw [(h.1.named_back hw (Target.start_eq_ok ha).1).1]
          exact hname
        | lambda | constraint => cases hf
      have hend := hremembers.trans (Target.remembers_enter hrange hnamed he)
      rwa [← Workspace.resume_eq (Target.enter_scope t v a)] at hend

end Runs

end SmtLowering
