import SmtLowering.Proofs.World

/-!
# Registries

Signatures as the registries hold them. A scope sees the signature that an application gave to a
name (`World.signature?_apply`), since each scope of a world names branches that its session has
(`Session.Has`).
-/

namespace SmtLowering

namespace NameTable

variable {α : Type} (t : NameTable α)

theorem find?_insert_self (name : String) (a : α) : (t.insert name a).find? name = some a := by
  obtain ⟨es⟩ := t
  simp only [insert, find?]
  induction es with
  | nil => simp [insertEntry]
  | cons e es ih =>
    obtain ⟨n, b⟩ := e
    simp only [insertEntry]
    split_ifs with h
    · simp
    · simp
    · rw [List.lookup_cons, beq_eq_false_iff_ne.2 h]
      exact ih

theorem find?_insert_ne {name f : String} (h : f ≠ name) (a : α) :
    (t.insert name a).find? f = t.find? f := by
  obtain ⟨es⟩ := t
  simp only [insert, find?]
  induction es with
  | nil => simp [insertEntry, List.lookup_cons, beq_eq_false_iff_ne.2 h]
  | cons e es ih =>
    obtain ⟨n, b⟩ := e
    simp only [insertEntry]
    split_ifs with hn
    · subst hn
      simp only [List.lookup_cons, beq_eq_false_iff_ne.2 h]
    · rw [List.lookup_cons, beq_eq_false_iff_ne.2 h]
    · rw [List.lookup_cons, ih, List.lookup_cons]

/-- Exactly the name that is inserted is new. -/
theorem isSome_find?_insert {name f : String} (a : α) :
    ((t.insert name a).find? f).isSome ↔ f = name ∨ (t.find? f).isSome := by
  by_cases h : f = name
  · subst h
    simp [find?_insert_self]
  · simp [h, find?_insert_ne t h]

theorem find?_erase_ne {name f : String} (h : f ≠ name) : (t.erase name).find? f = t.find? f := by
  obtain ⟨es⟩ := t
  simp only [erase, find?]
  induction es with
  | nil => rfl
  | cons e es ih =>
    obtain ⟨n, b⟩ := e
    by_cases hn : n = name
    · subst hn
      rw [List.filter_cons_of_neg (by simp), ih, List.lookup_cons, beq_eq_false_iff_ne.2 h]
    · rw [List.filter_cons_of_pos (by simpa using hn), List.lookup_cons, ih, List.lookup_cons]

end NameTable

namespace Branches

variable {α : Type} (bs : Branches α)

theorem get_update_self [Inhabited α] {i : Nat} (h : i < bs.contents.length) (f : α → α) :
    (bs.update i f).get i = f (bs.get i) := by
  simp [get, update, List.getD_eq_getElem?_getD, h]

theorem length_update (i : Nat) (f : α → α) :
    (bs.update i f).contents.length = bs.contents.length := by
  simp [update]

theorem lt_add (a : α) : bs.contents.length < (bs.add a).2.contents.length := by
  simp [add]

/-- Each branch is still there, and each but the `i`th as it was. -/
structure Framed [Inhabited α] (i : Nat) (bs bs' : Branches α) : Prop where
  length_le : bs.contents.length ≤ bs'.contents.length
  get_eq : ∀ j < bs.contents.length, j ≠ i → bs'.get j = bs.get j

section Framed

variable [Inhabited α] {bs} {bs' bs'' : Branches α} {i : Nat}

theorem Framed.refl (i : Nat) (bs : Branches α) : bs.Framed i bs :=
  ⟨Nat.le_refl _, fun _ _ _ => rfl⟩

theorem Framed.trans (h : Framed i bs bs') (h' : Framed i bs' bs'') : Framed i bs bs'' where
  length_le := Nat.le_trans h.length_le h'.length_le
  get_eq j hj hne :=
    (h'.get_eq j (Nat.lt_of_lt_of_le hj h.length_le) hne).trans (h.get_eq j hj hne)

theorem framed_update (i : Nat) (f : α → α) : Framed i bs (bs.update i f) where
  length_le := Nat.le_of_eq (bs.length_update i f).symm
  get_eq j _ hne := by
    simp [get, update, List.getD_eq_getElem?_getD, Ne.symm hne]

theorem get_add_of_lt (a : α) {j : Nat} (h : j < bs.contents.length) :
    (bs.add a).2.get j = bs.get j := by
  simp [get, add, List.getD_eq_getElem?_getD, List.getElem?_append_left h]

theorem get_add_self (a : α) : (bs.add a).2.get bs.contents.length = a := by
  simp [get, add, List.getD_eq_getElem?_getD]

/-- A new branch leaves all others alone, also when it is written itself. -/
theorem Framed.of_add {a : α} (h : Framed bs.contents.length (bs.add a).2 bs') (i : Nat) :
    Framed i bs bs' where
  length_le := Nat.le_trans (by simp [add]) h.length_le
  get_eq j hj _ := by
    rw [h.get_eq j (by simp [add]; omega) (Nat.ne_of_lt hj), get_add_of_lt a hj]

end Framed

/-- Deriving a branch gives one of the registry, and loses none. -/
theorem inherit_lt [Inhabited α] {i : Nat} (h : i < bs.contents.length) (p : Scope.Policy) :
    (bs.inherit i p).1 < (bs.inherit i p).2.contents.length ∧
      bs.contents.length ≤ (bs.inherit i p).2.contents.length := by
  cases p with
  | share => exact ⟨h, Nat.le_refl _⟩
  | snapshot | fresh => simp [inherit, add]

end Branches

namespace Session

/-- The session has the branches of signatures. -/
def Has (s : Session) (b : BranchIds) : Prop :=
  b.uninterpreted < s.uninterpreted.contents.length ∧
    b.userFunctions < s.userFunctions.contents.length

/-- The session has at least as many branches of signatures. -/
def Extends (s s' : Session) : Prop :=
  s.uninterpreted.contents.length ≤ s'.uninterpreted.contents.length ∧
    s.userFunctions.contents.length ≤ s'.userFunctions.contents.length

theorem Extends.has {s s' : Session} (h : s.Extends s') {b : BranchIds} (hb : s.Has b) : s'.Has b :=
  ⟨Nat.lt_of_lt_of_le hb.1 h.1, Nat.lt_of_lt_of_le hb.2 h.2⟩

theorem openScope_has (s : Session) (config : Config) :
    (s.openScope config).2.Has (s.openScope config).1.branches ∧
      s.Extends (s.openScope config).2 := by
  have hb : (s.openScope config).1.branches = ⟨s.uninterpreted.contents.length,
      s.userFunctions.contents.length, s.definitions.contents.length, s.axioms.contents.length,
      s.tableIds.contents.length, s.arrayIds.contents.length⟩ := rfl
  rw [hb]
  simp [Has, Extends, openScope, Branches.add]

theorem fork_has {s s' : Session} {parent child : Scope} {purpose : Purpose}
    (hp : s.Has parent.branches) (h : s.fork parent purpose = .ok (child, s')) :
    s'.Has child.branches ∧ s.Extends s' := by
  unfold fork at h
  split_ifs at h
  obtain ⟨rfl, rfl⟩ := Prod.mk.inj (Except.ok.inj h)
  have hu := s.uninterpreted.inherit_lt hp.1 (forkPolicy purpose .uninterpreted)
  have hf := s.userFunctions.inherit_lt hp.2 (forkPolicy purpose .userFunctions)
  exact ⟨⟨hu.1, hf.1⟩, ⟨hu.2, hf.2⟩⟩

end Session

namespace Operation

theorem sessionAfter_extends (w : Workspace) (o : Operation) :
    w.session.Extends (o.sessionAfter w) := by
  have refl (s : Session) : s.Extends s := ⟨Nat.le_refl _, Nat.le_refl _⟩
  cases o with
  | apply name result args =>
    simp only [sessionAfter]
    cases w.signature? name with
    | some _ => exact refl _
    | none =>
      simp [Session.Extends, Workspace.mapUninterpreted, Branches.length_update]
  | lookup entries index fallback =>
    simp only [sessionAfter]
    split_ifs
    · exact refl _
    · exact refl _
  | registerDefinition sig d | forgetUninterpreted name =>
    simp [sessionAfter, Session.Extends, Workspace.registerDefinition,
      Workspace.forgetUninterpreted, Workspace.mapUninterpreted, Branches.length_update]
  | _ => exact refl _

theorem sessionAfter_scopes (w : Workspace) (o : Operation) :
    (o.sessionAfter w).scopes = w.session.scopes := by
  cases o with
  | apply name result args =>
    simp only [sessionAfter]
    cases w.signature? name <;> rfl
  | lookup entries index fallback =>
    simp only [sessionAfter]
    split_ifs <;> rfl
  | _ => rfl

/-- After an application that is not refused the name has its signature. -/
theorem signature?_apply {w : Workspace} (hw : w.session.Has w.scope.branches) {name : String}
    {result : Kind} {args : List Value} {t : Scope} (ht : t.branches = w.scope.branches)
    (h : (w.signature? name).getD ⟨args.map Value.kind, result⟩ = ⟨args.map Value.kind, result⟩) :
    Workspace.signature? ⟨sessionAfter w (.apply name result args), t⟩ name =
      some ⟨args.map Value.kind, result⟩ := by
  simp only [sessionAfter]
  rcases hs : w.signature? name with _ | sig
  · have hu : w.userFunctions.find? name = none := by
      rw [Workspace.signature?, Option.or_eq_none_iff] at hs
      exact hs.1
    simp only [Workspace.signature?, Workspace.userFunctions, Workspace.uninterpreted,
      Workspace.mapUninterpreted, ht]
    rw [Branches.get_update_self _ hw.1, NameTable.find?_insert_self]
    simp only [Workspace.userFunctions] at hu
    rw [hu, Option.none_or]
  · rw [hs, Option.getD_some] at h
    subst h
    simpa only [Workspace.signature?, Workspace.userFunctions, Workspace.uninterpreted, ht] using hs

end Operation

end SmtLowering
