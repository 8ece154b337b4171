import SmtLowering.Proofs.Isolation

/-!
# Failed lowerings

A lowering that fails has entered nothing, but its computation may have written the registries that
the fork shares. If the computation lowers nothing itself, adds no axiom and forgets no name, all
that it writes are the signatures of names that it applied first, and definitions that it registered
on its own. The name that was to be defined is taken back, other names are not
(`Target.failed_lowering_keeps`).
-/

namespace SmtLowering

namespace NameTable

variable {α : Type} {t u : NameTable α} {A B : String → Prop} {f : String}

/-- `u` has more names than `t`, all of them of `A`. -/
inductive Grown (A : String → Prop) (t : NameTable α) : NameTable α → Prop
  | refl : Grown A t t
  | insert {u : NameTable α} {f : String} (a : α) : Grown A t u → A f → u.find? f = none →
    Grown A t (u.insert f a)

theorem Grown.trans {v : NameTable α} (h : Grown A t u) (h' : Grown B u v) (hB : ∀ f, B f → A f) :
    Grown A t v := by
  induction h' with
  | refl => exact h
  | insert a _ hf hnew ih => exact ih.insert a (hB _ hf) hnew

theorem Grown.find? (h : Grown A t u) {a : α} (ha : t.find? f = some a) : u.find? f = some a := by
  induction h with
  | refl => exact ha
  | @insert u g b _ _ hnew ih =>
    have hne : f ≠ g := by
      rintro rfl
      rw [ih] at hnew
      cases hnew
    rw [find?_insert_ne u hne, ih]

theorem Grown.new (h : Grown A t u) (hf : (u.find? f).isSome) : (t.find? f).isSome ∨ A f := by
  induction h with
  | refl => exact .inl hf
  | @insert u g b _ hg _ ih =>
    rcases (isSome_find?_insert u b).1 hf with rfl | hf
    · exact .inr hg
    · exact ih hf

theorem find?_eq_none_of_insert {name : String} {a : α} (h : (t.insert name a).find? f = none) :
    t.find? f = none := by
  rcases ht : t.find? f with _ | b
  · rfl
  · have hsome : ((t.insert name a).find? f).isSome :=
      (isSome_find?_insert t a).2 (.inr (Option.isSome_of_eq_some ht))
    rw [h] at hsome
    cases hsome

/-- A new entry does not show up among the others. -/
theorem filter_insertEntry {p : String × α → Bool} {a : α} (hp : p (f, a) = false)
    (es : List (String × α)) (hnew : es.lookup f = none) :
    (insertEntry f a es).filter p = es.filter p := by
  induction es with
  | nil => simp [insertEntry, hp]
  | cons e es ih =>
    obtain ⟨n, b⟩ := e
    have hne : f ≠ n := by
      rintro rfl
      simp at hnew
    rw [List.lookup_cons, beq_eq_false_iff_ne.2 hne] at hnew
    simp only [insertEntry, hne, if_false]
    split_ifs
    · rw [List.filter_cons_of_neg (by simp [hp])]
    · rw [List.filter_cons, List.filter_cons, ih hnew]

theorem find?_of_mem {e : String × α} (he : e ∈ t.entries) : (t.find? e.1).isSome := by
  obtain ⟨es⟩ := t
  simp only [NameTable.find?] at he ⊢
  induction es with
  | nil => cases he
  | cons d es ih =>
    obtain ⟨n, b⟩ := d
    rw [List.lookup_cons]
    rcases List.mem_cons.1 he with rfl | he
    · simp
    · split
      · rfl
      · exact ih he

/-- The entries of the names that `t` has are those of `t`. -/
theorem Grown.entries (h : Grown A t u) :
    u.entries.filter (fun e => (t.find? e.1).isSome) = t.entries := by
  induction h with
  | refl => exact List.filter_eq_self.2 fun e he => find?_of_mem he
  | @insert u g a hg _ hnew ih =>
    refine (filter_insertEntry ?_ u.entries hnew).trans ih
    rcases ht : t.find? g with _ | b
    · simp
    · rw [hg.find? ht] at hnew
      cases hnew

theorem eq_of_entries {u : NameTable α}
    (h : u.entries.filter (fun e => (t.find? e.1).isSome) = t.entries)
    (hall : ∀ f, (u.find? f).isSome → (t.find? f).isSome) : u = t := by
  obtain ⟨es⟩ := u
  obtain ⟨ds⟩ := t
  rw [List.filter_eq_self.2 fun e he => hall e.1 (find?_of_mem he)] at h
  exact congrArg mk h

theorem find?_erase_self (t : NameTable α) (f : String) : (t.erase f).find? f = none := by
  refine List.lookup_eq_none_iff.2 fun e he => ?_
  exact bne_iff_ne.2 (Ne.symm (of_decide_eq_true (List.mem_filter.1 he).2))

end NameTable

namespace Operation

/-- Neither an axiom nor a forgotten name. -/
def isLocal : Operation → Bool
  | .addAxiom _ | .forgetUninterpreted _ => false
  | _ => true

def registers : Operation → Bool
  | .registerDefinition .. => true
  | _ => false

/-- The function that the operation applies. -/
def appliedName? : Operation → Option String
  | .apply name _ _ => some name
  | _ => none

end Operation

namespace Computation

/-- The computation lowers nothing, and each operation that it may carry out is one of `P`. -/
def Operates (P : Operation → Prop) : Computation → Prop
  | result _ | abort _ => True
  | operate o next => P o ∧ ∀ r, (next r).Operates P
  | inspect next => ∀ w, (next w).Operates P
  | lambda .. | function .. | constraint .. => False

/-- What operations keep, a computation without lowerings keeps. -/
theorem Operates.run {P : Operation → Prop} {R : Workspace → Workspace → Prop}
    (h : Carries P R) {c : Computation} (hc : c.Operates P) (w : Workspace) :
    R w (outcome c.run w).2 := by
  induction c generalizing w with
  | result v | abort e => exact h.refl w
  | operate o next ih =>
    have hstep := h.operate o w hc.1
    exact Work.attempt_bind (Q := R w) hstep fun r => h.trans _ _ _ hstep (ih r (hc.2 r) _)
  | inspect next ih => exact ih w (hc w) w
  | lambda k body next | function name k body next | constraint label body next => exact hc.elim

end Computation

namespace Workspace

/-- From `w` to `w'`, which are of one scope, the names of signatures grow by some of `A` that
nothing knew in `w`, nothing that was callable is lost and no axiom is added. -/
structure Grew (A : String → Prop) (w w' : Workspace) : Prop where
  branches : w'.scope.branches = w.scope.branches
  inRange : w.session.uninterpreted.contents.length ≤ w'.session.uninterpreted.contents.length ∧
    w.session.userFunctions.contents.length ≤ w'.session.userFunctions.contents.length
  uninterpreted : w.uninterpreted.Grown (fun f => A f ∧ w.userFunctions.find? f = none)
    w'.uninterpreted
  callable : ∀ f, w'.userFunctions.find? f = none → w.userFunctions.find? f = none
  axioms : w'.axioms = w.axioms

variable {A : String → Prop} {w w' w'' : Workspace}

theorem Grew.refl (w : Workspace) : w.Grew A w :=
  ⟨rfl, ⟨Nat.le_refl _, Nat.le_refl _⟩, .refl, fun _ h => h, rfl⟩

/-- In a session with the registries of `w`, the scope may be any that uses them as `w` does. -/
theorem Grew.of_same {s : Scope} {t : Session} (hb : s.branches = w.scope.branches)
    (hun : t.uninterpreted = w.session.uninterpreted)
    (hfun : t.userFunctions = w.session.userFunctions) (hax : t.axioms = w.session.axioms) :
    w.Grew A ⟨t, s⟩ := by
  refine ⟨hb, ?_, ?_, fun f hf => ?_, ?_⟩
  · rw [hun, hfun]
    exact ⟨Nat.le_refl _, Nat.le_refl _⟩
  · simp only [Workspace.uninterpreted, hun, hb]
    exact .refl
  · simpa only [Workspace.userFunctions, hfun, hb] using hf
  · simp only [Workspace.axioms, hax, hb]

theorem Grew.trans (h : w.Grew A w') (h' : w'.Grew A w'') : w.Grew A w'' where
  branches := h'.branches.trans h.branches
  inRange := ⟨Nat.le_trans h.inRange.1 h'.inRange.1, Nat.le_trans h.inRange.2 h'.inRange.2⟩
  uninterpreted := h.uninterpreted.trans h'.uninterpreted fun f hf => ⟨hf.1, h.callable f hf.2⟩
  callable f hf := h.callable f (h'.callable f hf)
  axioms := h'.axioms.trans h.axioms

theorem Grew.has (h : w.Grew A w') (hw : w.session.Has w.scope.branches) :
    w'.session.Has w'.scope.branches := by
  rw [h.branches]
  exact ⟨Nat.lt_of_lt_of_le hw.1 h.inRange.1, Nat.lt_of_lt_of_le hw.2 h.inRange.2⟩

end Workspace

section Operations

variable {A : String → Prop} {w : Workspace} {o : Operation}

/-- An operation declares at most the name that it applies, if nothing knows it. -/
theorem Operation.run_grew (hw : w.session.Has w.scope.branches) (hl : o.isLocal = true)
    (hA : ∀ f, o.appliedName? = some f → A f) : w.Grew A (outcome o.run w).2 := by
  rw [outcome_run]
  have hb := (o.scopeStep_grows w).branches
  generalize (outcome (o.scopeStep w) w.scope).2 = s at hb ⊢
  cases o with
  | apply name result args =>
    simp only [sessionAfter]
    rcases hs : w.signature? name with _ | sig
    · rw [Workspace.signature?, Option.or_eq_none_iff] at hs
      refine ⟨hb, ⟨Nat.le_of_eq (Branches.length_update _ _ _).symm, Nat.le_refl _⟩, ?_,
        fun f hf => ?_, ?_⟩
      · simp only [Workspace.uninterpreted, Workspace.mapUninterpreted, hb]
        rw [Branches.get_update_self _ hw.1]
        exact .insert _ .refl ⟨hA name rfl, hs.1⟩ hs.2
      · simpa only [Workspace.userFunctions, Workspace.mapUninterpreted, hb] using hf
      · simp only [Workspace.axioms, Workspace.mapUninterpreted, hb]
    · exact .of_same hb rfl rfl rfl
  | lookup entries index fallback =>
    simp only [sessionAfter]
    split_ifs
    · exact .of_same hb rfl rfl rfl
    · exact .of_same hb rfl rfl rfl
  | registerDefinition sig d =>
    refine ⟨hb, ⟨Nat.le_refl _, Nat.le_of_eq (Branches.length_update _ _ _).symm⟩, ?_,
      fun f hf => ?_, ?_⟩
    · simp only [sessionAfter, Workspace.uninterpreted, Workspace.registerDefinition, hb]
      exact .refl
    · simp only [sessionAfter, Workspace.userFunctions, Workspace.registerDefinition, hb] at hf
      rw [Branches.get_update_self _ hw.2] at hf
      exact NameTable.find?_eq_none_of_insert hf
    · simp only [sessionAfter, Workspace.axioms, Workspace.registerDefinition, hb]
  | addAxiom | forgetUninterpreted => cases hl
  | _ => exact .of_same hb rfl rfl rfl

theorem Computation.carries_grew : Carries
    (fun o => o.isLocal = true ∧ ∀ f, o.appliedName? = some f → A f)
    (fun w w' => w.session.Has w.scope.branches → w.Grew A w') where
  output v := ⟨rfl, fun f hf => by cases hf⟩
  refl w _ := .refl w
  trans u v w huv hvw hu := (huv hu).trans (hvw ((huv hu).has hu))
  operate o w ho hw := o.run_grew hw ho.1 ho.2

/-- Operations that register nothing leave the callable functions and the definitions of the session
alone. -/
theorem Computation.carries_unregistered : Carries (fun o => o.registers = false)
    (fun w w' => w'.session.userFunctions = w.session.userFunctions ∧
      w'.session.definitions = w.session.definitions) where
  output _ := rfl
  refl _ := ⟨rfl, rfl⟩
  trans _ _ _ h h' := ⟨h'.1.trans h.1, h'.2.trans h.2⟩
  operate o w ho := by
    rw [Operation.outcome_run]
    cases o with
    | apply name result args =>
      simp only [Operation.sessionAfter]
      rcases w.signature? name with _ | sig <;> exact ⟨rfl, rfl⟩
    | lookup entries index fallback =>
      simp only [Operation.sessionAfter]
      split_ifs <;> exact ⟨rfl, rfl⟩
    | registerDefinition sig d => cases ho
    | _ => exact ⟨rfl, rfl⟩

end Operations

section Forks

variable {w : Workspace} {purpose : Purpose} {child : Scope} {s : Session}

/-- A fork reads what its parent reads, and shares the signatures and the axioms. -/
theorem Session.fork_reads (hw : w.InRange)
    (hf : w.session.fork w.scope purpose = .ok (child, s)) :
    (child.branches.uninterpreted = w.scope.branches.uninterpreted ∧
      child.branches.axioms = w.scope.branches.axioms) ∧
    (s.uninterpreted = w.session.uninterpreted ∧ s.axioms = w.session.axioms) ∧
    Workspace.userFunctions ⟨s, child⟩ = w.userFunctions ∧ s.Has child.branches := by
  by_cases hp : purpose = .named
  · subst hp
    obtain ⟨rfl, rfl⟩ := Session.fork_named hf
    rw [Scope.blank_eq]
    exact ⟨⟨rfl, rfl⟩, ⟨rfl, rfl⟩, Branches.get_add_self _, hw.uninterpreted,
      by simp [Branches.add]⟩
  · obtain ⟨rfl, rfl, -⟩ := Session.fork_shared hf hp
    rw [Scope.blank_eq]
    exact ⟨⟨rfl, rfl⟩, ⟨rfl, rfl⟩, rfl, hw.uninterpreted, hw.userFunctions⟩

/-- Back in the parent, the names of signatures have grown as in the fork. -/
theorem Workspace.Grew.back (hw : w.InRange)
    (hf : w.session.fork w.scope purpose = .ok (child, s)) {A : String → Prop} {c : Workspace}
    (h : Grew A ⟨s, child⟩ c) :
    w.uninterpreted.Grown (fun f => A f ∧ w.userFunctions.find? f = none)
        (w.resume c.session).uninterpreted ∧
      (w.resume c.session).axioms = w.axioms ∧
      w.scope.branches.uninterpreted < c.session.uninterpreted.contents.length := by
  obtain ⟨⟨hbu, hba⟩, ⟨hu, ha⟩, hfuns, -⟩ := Session.fork_reads hw hf
  have hun := h.uninterpreted
  have hax := h.axioms
  have hlen := h.inRange.1
  have hcb : c.scope.branches = child.branches := h.branches
  simp only [Workspace.uninterpreted, Workspace.axioms, resume, hfuns, hcb, hbu, hba, hu, ha]
    at hun hax ⊢
  simp only [hu] at hlen
  exact ⟨hun, hax, Nat.lt_of_lt_of_le hw.uninterpreted hlen⟩

end Forks

namespace Target

variable {t : Target} {w : Workspace} {x : Work Value} {e : LowerError} {s : Session}

/-- A lowering that fails either ran nothing, or ends in the session of its computation with its own
name withdrawn. -/
theorem lower_error (h : (t.lower w.scope x).run.run w.session = (.error (.error e), s)) :
    s = w.session ∨ ∃ child s₀, t.start w = .ok (child, s₀) ∧
      s = (t.withdraw w (w.resume (outcome (Lowering.replayed x) ⟨s₀, child⟩).2.session)
        (.error e)).session := by
  rw [t.outcome_lower] at h
  rcases ha : t.start w with e' | ⟨child, s₀⟩ <;> rw [ha] at h
  · cases h
    exact .inl rfl
  · refine .inr ⟨child, s₀, rfl, ?_⟩
    simp only at h
    rcases t.conclude_cases w (outcome (Lowering.replayed x) ⟨s₀, child⟩).1
      (outcome (Lowering.replayed x) ⟨s₀, child⟩).2 with ⟨f, hc⟩ | ⟨v, a, -, -, hc⟩ <;> rw [hc] at h
    · cases h
      rfl
    · cases h

/-- Withdrawing touches no other registry than that of the signatures, and there at most the name
that was to be defined. -/
theorem withdraw_cases (t : Target) (w w' : Workspace) (e : LowerError) :
    t.withdraw w w' (.error e) = w' ∧
        (∀ name, t.name? = some name → (w.uninterpreted.find? name).isSome) ∨
      ∃ name, t.name? = some name ∧ w.uninterpreted.find? name = none ∧
        t.withdraw w w' (.error e) = w'.forgetUninterpreted name := by
  cases t with
  | lambda k | constraint label => exact .inl ⟨rfl, fun _ h => by cases h⟩
  | function name k =>
    rcases hn : w.uninterpreted.find? name with _ | sig
    · refine .inr ⟨name, rfl, hn, ?_⟩
      simp [withdraw, hn]
    · refine .inl ⟨by simp [withdraw, hn], ?_⟩
      rintro _ ⟨⟩
      rw [hn]
      rfl

section Kept

variable {A : String → Prop}

/-- What the signatures are after a failure: those of `w`, and those of new names. -/
structure Kept (A : String → Prop) (t : Target) (w : Workspace) (u : NameTable Signature) :
    Prop where
  entries : u.entries.filter (fun e => (w.uninterpreted.find? e.1).isSome) =
    w.uninterpreted.entries
  new : ∀ f, (u.find? f).isSome → (w.uninterpreted.find? f).isSome ∨
    A f ∧ w.signature? f = none ∧ t.name? ≠ some f

variable {u : NameTable Signature}
  (h : w.uninterpreted.Grown (fun f => A f ∧ w.userFunctions.find? f = none) u)
include h

theorem new_of_grown {f : String} (hf : (u.find? f).isSome) :
    (w.uninterpreted.find? f).isSome ∨ A f ∧ w.signature? f = none := by
  rcases hw : w.uninterpreted.find? f with _ | sig
  · obtain ⟨hA, hfun⟩ := (h.new hf).resolve_left (by simp [hw])
    exact .inr ⟨hA, by rw [Workspace.signature?, hfun, hw]; rfl⟩
  · exact .inl rfl

theorem kept_of_grown (ht : ∀ f, t.name? = some f → (w.uninterpreted.find? f).isSome) :
    Kept A t w u where
  entries := h.entries
  new f hf := by
    rcases new_of_grown h hf with hold | ⟨hA, hs⟩
    · exact .inl hold
    · refine .inr ⟨hA, hs, fun hn => ?_⟩
      rw [Workspace.signature?, Option.or_eq_none_iff] at hs
      have hsome := ht f hn
      rw [hs.2] at hsome
      cases hsome

theorem kept_of_erase {name : String} (ht : t.name? = some name)
    (hname : w.uninterpreted.find? name = none) : Kept A t w (u.erase name) where
  entries := by
    rw [NameTable.erase, List.filter_filter]
    have hcomm : (u.entries.filter fun e => (w.uninterpreted.find? e.1).isSome && (e.1 ≠ name)) =
        (u.entries.filter fun e => (w.uninterpreted.find? e.1).isSome).filter (·.1 ≠ name) := by
      rw [List.filter_filter]
      exact List.filter_congr fun e _ => Bool.and_comm _ _
    rw [hcomm, h.entries]
    refine List.filter_eq_self.2 fun e he => decide_eq_true fun hn => ?_
    have hsome := NameTable.find?_of_mem he
    rw [hn, hname] at hsome
    cases hsome
  new f hf := by
    by_cases hn : f = name
    · subst hn
      rw [NameTable.find?_erase_self] at hf
      cases hf
    · rw [NameTable.find?_erase_ne u hn] at hf
      rcases new_of_grown h hf with hold | ⟨hA, hs⟩
      · exact .inl hold
      · refine .inr ⟨hA, hs, ?_⟩
        rw [ht, ne_eq, Option.some.injEq]
        exact fun he => hn he.symm

end Kept

/-- A computation that registers nothing, or runs in a fork of its own for these registries, leaves
the parent's callable functions and definitions alone. -/
theorem callable_back (hw : w.InRange) {c : Computation}
    (hc : t.purpose = .named ∨ c.Operates fun o => o.registers = false) {child : Scope}
    {s₀ : Session} (ha : t.start w = .ok (child, s₀)) :
    (w.resume (outcome (Lowering.replayed c.run) ⟨s₀, child⟩).2.session).userFunctions =
        w.userFunctions ∧
      (w.resume (outcome (Lowering.replayed c.run) ⟨s₀, child⟩).2.session).definitions =
        w.definitions := by
  have hf := (start_eq_ok ha).1
  by_cases hp : t.purpose = .named
  · exact (Computation.relates_writes.replayed
      (Computation.relates_writes.run c c.uses_true ⟨s₀, child⟩)).named_back hw (hp ▸ hf)
  · obtain ⟨hfuns, hdefs⟩ := Computation.carries_unregistered.replayed
      ((hc.resolve_left hp).run Computation.carries_unregistered ⟨s₀, child⟩)
    obtain ⟨-, rfl, -⟩ := Session.fork_shared hf hp
    simp only [Workspace.userFunctions, Workspace.definitions, Workspace.resume, hfuns, hdefs,
      and_self]

/-- After a lowering that fails, whose computation lowers nothing itself, adds no axiom and forgets
no name, the axioms are as before, and so are the callable functions and the definitions unless the
computation registered some where the fork shares them. The signatures are as before but for those
of names that the computation applied and that nothing knew; the name that was to be defined is not
among them. -/
theorem failed_lowering_keeps (hw : w.InRange) {A : String → Prop} {c : Computation}
    (hc : c.Operates fun o => o.isLocal = true ∧ ∀ f, o.appliedName? = some f → A f)
    (h : (t.lower w.scope c.run).run.run w.session = (.error (.error e), s)) :
    (w.resume s).axioms = w.axioms ∧
    (t.purpose = .named ∨ (c.Operates fun o => o.registers = false) →
      (w.resume s).userFunctions = w.userFunctions ∧ (w.resume s).definitions = w.definitions) ∧
    (w.resume s).uninterpreted.entries.filter (fun e => (w.uninterpreted.find? e.1).isSome) =
      w.uninterpreted.entries ∧
    (∀ f, ((w.resume s).uninterpreted.find? f).isSome →
      (w.uninterpreted.find? f).isSome ∨
        A f ∧ w.signature? f = none ∧ t.name? ≠ some f) ∧
    ((∀ f, A f → (w.signature? f).isSome ∨ t.name? = some f) →
      (w.resume s).uninterpreted = w.uninterpreted ∧
      (t.purpose = .named ∨ (c.Operates fun o => o.registers = false) →
        (w.resume s).declarations = w.declarations)) := by
  have hkept : (w.resume s).axioms = w.axioms ∧ Kept A t w (w.resume s).uninterpreted ∧
      (t.purpose = .named ∨ (c.Operates fun o => o.registers = false) →
        (w.resume s).userFunctions = w.userFunctions ∧
          (w.resume s).definitions = w.definitions) := by
    rcases lower_error h with rfl | ⟨child, s₀, ha, rfl⟩
    · exact ⟨rfl, ⟨(NameTable.Grown.refl (A := A)).entries, fun _ hf => .inl hf⟩,
        fun _ => ⟨rfl, rfl⟩⟩
    · have hf := (start_eq_ok ha).1
      have hgrew := Computation.carries_grew.replayed
        (hc.run Computation.carries_grew ⟨s₀, child⟩) (Session.fork_reads hw hf).2.2.2
      obtain ⟨hun, hax, hlt⟩ := hgrew.back hw hf
      have hcallable := fun hr => callable_back hw (c := c) hr ha
      generalize (outcome (Lowering.replayed c.run) ⟨s₀, child⟩).2.session = s' at *
      rcases t.withdraw_cases w (w.resume s') e with ⟨hwd, ht⟩ | ⟨name, ht, hname, hwd⟩ <;> rw [hwd]
      · exact ⟨hax, kept_of_grown hun ht, hcallable⟩
      · have herase : (w.resume ((w.resume s').forgetUninterpreted name).session).uninterpreted =
            (w.resume s').uninterpreted.erase name := Branches.get_update_self _ hlt _
        exact ⟨hax, herase ▸ kept_of_erase hun ht hname, hcallable⟩
  obtain ⟨hax, hk, hcallable⟩ := hkept
  refine ⟨hax, hcallable, hk.entries, hk.new, fun hA => ?_⟩
  have hun : (w.resume s).uninterpreted = w.uninterpreted := by
    refine NameTable.eq_of_entries hk.entries fun f hf => ?_
    refine (hk.new f hf).resolve_right fun ⟨hAf, hs, hn⟩ => ?_
    have hknown := (hA f hAf).resolve_right hn
    rw [hs] at hknown
    cases hknown
  refine ⟨hun, fun hr => ?_⟩
  simp only [Workspace.declarations, hun, (hcallable hr).2, hax]
  rfl

/-- Applies a function and gives up. -/
def callThenAbort (f : String) : Computation :=
  .operate (.apply f .int []) fun _ => .abort (.user "boom")

theorem callThenAbort_operates (f : String) : (callThenAbort f).Operates
    fun o => o.isLocal = true ∧ ∀ g, o.appliedName? = some g → g = f :=
  ⟨⟨rfl, fun _ hg => (Option.some.inj hg).symm⟩, fun _ => trivial⟩

/-- A body that applied the name it was to define. -/
theorem failed_lowering_keeps_ownName :
    ∃ s, ((function "f" .int).lower (Workspace.new {}).scope (callThenAbort "f").run).run.run
        (Workspace.new {}).session =
          (.error (.error (.replay "named function f" (.user "boom"))), s) ∧
      ((Workspace.new {}).resume s).declarations = (Workspace.new {}).declarations := by
  refine ⟨_, rfl, ?_⟩
  have hw : (Workspace.new {}).InRange := World.start_inRange {} _ (List.mem_singleton.2 rfl)
  have hkeeps := failed_lowering_keeps (t := function "f" .int) hw (callThenAbort_operates "f") rfl
  exact (hkeeps.2.2.2.2 fun g hg => .inr (congrArg some hg.symm)).2 (.inl rfl)

/-- A failed lowering is not atomic: of a lambda's computation that applied a function before it
gave up, the signature stays and is declared. -/
theorem failed_lowering_not_atomic :
    ∃ s, ((lambda .int).lower (Workspace.new {}).scope (callThenAbort "f").run).run.run
        (Workspace.new {}).session = (.error (.error (.replay "lambda" (.user "boom"))), s) ∧
      (Workspace.new {}).declarations = [] ∧
      ((Workspace.new {}).resume s).declarations = ["(declare-fun f () Int)"] :=
  ⟨_, rfl, rfl, rfl⟩

end Target

end SmtLowering
