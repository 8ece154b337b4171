import SmtLowering.Proofs.Independence
import SmtLowering.Proofs.Relabelling
import SmtLowering.Proofs.Repetition

/-!
# What requests leave alone

A scope is asked for operations and for scopes that are derived from it, whatever they take over.
That writes the branches of the scope itself and branches that are added (`World.Confined`), in all
six registries. So another scope that was there before is left as it was, with all that it sees, if
it has no branch in common with the first (`World.Confined.untouched`).
-/

namespace SmtLowering

namespace Branches

variable {α : Type} [Inhabited α] {i j : Nat} {bs bs' bs'' : Branches α}

/-- What writes the `i`th branch or behind all branches of `bs` leaves the others alone. -/
theorem Framed.trans_within (h : Framed i bs bs') (h' : Framed j bs' bs'')
    (hj : j = i ∨ bs.contents.length ≤ j) : Framed i bs bs'' := by
  rcases hj with rfl | hj
  · exact h.trans h'
  · exact ⟨h.length_le.trans h'.length_le, fun k hk hne =>
      (h'.get_eq k (hk.trans_le h.length_le) (by omega)).trans (h.get_eq k hk hne)⟩

theorem framed_inherit (i : Nat) (bs : Branches α) (parent : Nat) (p : Scope.Policy) :
    Framed i bs (bs.inherit parent p).2 := by
  cases p with
  | share => exact .refl i bs
  | snapshot | fresh => exact .of_add (.refl _ _) i

/-- A derived branch is the parent's, or it is new. -/
theorem inherit_within (h : bs.contents.length ≤ bs'.contents.length)
    (hj : j = i ∨ bs.contents.length ≤ j) (p : Scope.Policy) :
    (bs'.inherit j p).1 = i ∨ bs.contents.length ≤ (bs'.inherit j p).1 := by
  cases p with
  | share => exact hj
  | snapshot | fresh => exact .inr h

end Branches

/-- Each branch is that of `b`, or there was none of its number in the session. -/
structure BranchIds.Within (b : BranchIds) (s : Session) (c : BranchIds) : Prop where
  uninterpreted : c.uninterpreted = b.uninterpreted ∨
    s.uninterpreted.contents.length ≤ c.uninterpreted
  userFunctions : c.userFunctions = b.userFunctions ∨
    s.userFunctions.contents.length ≤ c.userFunctions
  definitions : c.definitions = b.definitions ∨ s.definitions.contents.length ≤ c.definitions
  axioms : c.axioms = b.axioms ∨ s.axioms.contents.length ≤ c.axioms
  tableIds : c.tableIds = b.tableIds ∨ s.tableIds.contents.length ≤ c.tableIds
  arrayIds : c.arrayIds = b.arrayIds ∨ s.arrayIds.contents.length ≤ c.arrayIds

theorem BranchIds.Within.self (b : BranchIds) (s : Session) : b.Within s b :=
  ⟨.inl rfl, .inl rfl, .inl rfl, .inl rfl, .inl rfl, .inl rfl⟩

namespace Session

/-- In each registry all branches are still there, and all but that of `b` as they were. -/
structure Framed (b : BranchIds) (s s' : Session) : Prop where
  uninterpreted : s.uninterpreted.Framed b.uninterpreted s'.uninterpreted
  userFunctions : s.userFunctions.Framed b.userFunctions s'.userFunctions
  definitions : s.definitions.Framed b.definitions s'.definitions
  axioms : s.axioms.Framed b.axioms s'.axioms
  tableIds : s.tableIds.Framed b.tableIds s'.tableIds
  arrayIds : s.arrayIds.Framed b.arrayIds s'.arrayIds

variable {b c : BranchIds} {s s' s'' : Session}

theorem Framed.refl (b : BranchIds) (s : Session) : s.Framed b s :=
  ⟨.refl _ _, .refl _ _, .refl _ _, .refl _ _, .refl _ _, .refl _ _⟩

theorem Framed.trans_within (h : s.Framed b s') (h' : s'.Framed c s'') (hc : b.Within s c) :
    s.Framed b s'' :=
  ⟨h.uninterpreted.trans_within h'.uninterpreted hc.uninterpreted,
    h.userFunctions.trans_within h'.userFunctions hc.userFunctions,
    h.definitions.trans_within h'.definitions hc.definitions,
    h.axioms.trans_within h'.axioms hc.axioms, h.tableIds.trans_within h'.tableIds hc.tableIds,
    h.arrayIds.trans_within h'.arrayIds hc.arrayIds⟩

theorem derive_framed (b : BranchIds) (s : Session) (parent : Scope) (level : Nat)
    (policy : Scope.Field → Scope.Policy) : s.Framed b (s.derive parent level policy).2 :=
  ⟨Branches.framed_inherit _ _ _ _, Branches.framed_inherit _ _ _ _,
    Branches.framed_inherit _ _ _ _, Branches.framed_inherit _ _ _ _,
    Branches.framed_inherit _ _ _ _, Branches.framed_inherit _ _ _ _⟩

/-- A derived scope uses its parent's branches, or new ones. -/
theorem Framed.derive_within (h : s.Framed b s') {parent : Scope}
    (hp : b.Within s parent.branches) (level : Nat) (policy : Scope.Field → Scope.Policy) :
    b.Within s (s'.derive parent level policy).1.branches :=
  ⟨Branches.inherit_within h.uninterpreted.length_le hp.uninterpreted _,
    Branches.inherit_within h.userFunctions.length_le hp.userFunctions _,
    Branches.inherit_within h.definitions.length_le hp.definitions _,
    Branches.inherit_within h.axioms.length_le hp.axioms _,
    Branches.inherit_within h.tableIds.length_le hp.tableIds _,
    Branches.inherit_within h.arrayIds.length_le hp.arrayIds _⟩

end Session

theorem Operation.sessionAfter_framed (w : Workspace) (o : Operation) :
    w.session.Framed w.scope.branches (o.sessionAfter w) := by
  have hrefl := Session.Framed.refl w.scope.branches w.session
  cases o with
  | apply name result args =>
    simp only [sessionAfter]
    rcases w.signature? name with _ | sig
    · exact { hrefl with uninterpreted := Branches.framed_update _ _ }
    · exact hrefl
  | lookup entries index fallback =>
    simp only [sessionAfter]
    split_ifs
    · exact { hrefl with tableIds := Branches.framed_update _ _ }
    · exact hrefl
  | newArray name key value => exact { hrefl with arrayIds := Branches.framed_update _ _ }
  | registerDefinition sig d =>
    exact { hrefl with
      userFunctions := Branches.framed_update _ _
      definitions := Branches.framed_update _ _ }
  | addAxiom text => exact { hrefl with axioms := Branches.framed_update _ _ }
  | forgetUninterpreted name => exact { hrefl with uninterpreted := Branches.framed_update _ _ }
  | _ => exact hrefl

/-- Of no registry both have the same branch. -/
structure BranchIds.Apart (b c : BranchIds) : Prop where
  uninterpreted : c.uninterpreted ≠ b.uninterpreted
  userFunctions : c.userFunctions ≠ b.userFunctions
  definitions : c.definitions ≠ b.definitions
  axioms : c.axioms ≠ b.axioms
  tableIds : c.tableIds ≠ b.tableIds
  arrayIds : c.arrayIds ≠ b.arrayIds

theorem BranchIds.Apart.symm {b c : BranchIds} (h : b.Apart c) : c.Apart b :=
  ⟨h.uninterpreted.symm, h.userFunctions.symm, h.definitions.symm, h.axioms.symm, h.tableIds.symm,
    h.arrayIds.symm⟩

namespace Workspace

/-- From both workspaces the registries and the counters read the same. -/
structure SameReadings (w w' : Workspace) : Prop extends w.SameRegistries w' where
  tableId : w'.takeTableId.1 = w.takeTableId.1
  arrayId : w'.takeArrayId.1 = w.takeArrayId.1

theorem SameReadings.of_framed {w : Workspace} (hw : w.Rooted) {b : BranchIds} {s : Session}
    (h : w.session.Framed b s) (hb : b.Apart w.scope.branches) :
    w.SameReadings ⟨s, w.scope⟩ where
  uninterpreted := h.uninterpreted.get_eq _ hw.uninterpreted hb.uninterpreted
  userFunctions := h.userFunctions.get_eq _ hw.userFunctions hb.userFunctions
  definitions := h.definitions.get_eq _ hw.definitions hb.definitions
  axioms := h.axioms.get_eq _ hw.axioms hb.axioms
  tableId := h.tableIds.get_eq _ hw.tableIds hb.tableIds
  arrayId := h.arrayIds.get_eq _ hw.arrayIds hb.arrayIds

end Workspace

/-- What a scope is asked for: an operation, or a scope that is derived from it. -/
inductive Request
  | operate (scope : Nat) (o : Operation)
  | derive (scope level : Nat) (policy : Scope.Field → Scope.Policy)

namespace Request

def scope : Request → Nat
  | operate i _ | derive i _ _ => i

def deed : Request → Deed
  | operate i o => .act (.operate i o)
  | derive i level policy => .derive i level policy

end Request

namespace World

def requests (w : World) (rs : List Request) : World := w.deeds (rs.map Request.deed)

/-- In `w`, the scopes that were in `w₀` are as they were, but for the `n`th. That one uses the
branches `b`, later scopes use these or new ones, and of the older ones no others were written. -/
structure Confined (w₀ : World) (n : Nat) (b : BranchIds) (w : World) : Prop where
  length_le : w₀.scopes.length ≤ w.scopes.length
  others : ∀ i < w₀.scopes.length, i ≠ n → w.scopes[i]? = w₀.scopes[i]?
  within : ∀ i t, i = n ∨ w₀.scopes.length ≤ i → w.scopes[i]? = some t →
    b.Within w₀.session t.branches
  session : w₀.session.Framed b w.session

section Confined

variable {w₀ w : World} {n i : Nat} {b : BranchIds} {s : Scope}

theorem Confined.refl (hs : w₀.scopes[n]? = some s) : Confined w₀ n s.branches w₀ where
  length_le := Nat.le_refl _
  others _ _ _ := rfl
  within i t hi ht := by
    obtain ⟨hlt, -⟩ := List.getElem?_eq_some_iff.1 ht
    obtain rfl : i = n := by omega
    rw [hs] at ht
    cases ht
    exact .self _ _
  session := .refl _ _

theorem Confined.operate (h : Confined w₀ n b w) (hi : i = n ∨ w₀.scopes.length ≤ i)
    (o : Operation) : Confined w₀ n b (w.next (.call i o)) := by
  rcases hs : w.scopes[i]? with _ | s
  · rw [next_call_none w o hs]
    exact h
  · rw [next_call w o hs]
    have hwithin := h.within i s hi hs
    have hbranches : (outcome (o.scopeStep (w.workspace s)) s).2.branches = s.branches :=
      (o.scopeStep_grows (w.workspace s)).branches
    refine ⟨?_, fun j hj hne => ?_, fun j t hj ht => ?_, ?_⟩
    · rw [List.length_set]
      exact h.length_le
    · rw [List.getElem?_set_ne (by omega)]
      exact h.others j hj hne
    · by_cases hij : i = j
      · subst hij
        rw [List.getElem?_set_self (List.getElem?_eq_some_iff.1 hs).1] at ht
        cases ht
        rwa [hbranches]
      · rw [List.getElem?_set_ne hij] at ht
        exact h.within j t hj ht
    · exact h.session.trans_within (o.sessionAfter_framed (w.workspace s)) hwithin

theorem Confined.derived (h : Confined w₀ n b w) (hi : i = n ∨ w₀.scopes.length ≤ i)
    (hs : w.scopes[i]? = some s) (level : Nat) (policy : Scope.Field → Scope.Policy) :
    Confined w₀ n b (w.derived s level policy) where
  length_le := by
    rw [World.derived, List.length_append]
    exact h.length_le.trans (Nat.le_add_right _ _)
  others j hj hne := by
    rw [World.derived, List.getElem?_append_left (hj.trans_le h.length_le)]
    exact h.others j hj hne
  within j t hj ht := by
    rw [World.derived, List.getElem?_append] at ht
    split_ifs at ht
    · exact h.within j t hj ht
    · obtain rfl := List.mem_singleton.1 (List.mem_of_getElem? ht)
      exact h.session.derive_within (h.within i s hi hs) level policy
  session := h.session.trans_within (w.session.derive_framed _ s level policy) (.self _ _)

theorem Confined.request (h : Confined w₀ n b w) {r : Request}
    (hr : r.scope = n ∨ w₀.scopes.length ≤ r.scope) : Confined w₀ n b (w.deed r.deed) := by
  cases r with
  | operate i o => exact h.operate hr o
  | derive i level policy =>
    simp only [Request.deed, deed]
    rcases hs : w.scopes[i]? with _ | s
    · exact h
    · exact h.derived hr hs level policy

theorem Confined.requests (h : Confined w₀ n b w) {rs : List Request}
    (hr : ∀ r ∈ rs, r.scope = n ∨ w₀.scopes.length ≤ r.scope) :
    Confined w₀ n b (w.requests rs) := by
  induction rs generalizing w with
  | nil => exact h
  | cons r rs ih =>
    rw [List.forall_mem_cons] at hr
    exact ih (h.request hr.1) hr.2

/-- The `i`th scope is the same, and so is what it sees. -/
def Untouched (w w' : World) (i : Nat) : Prop :=
  ∀ t, w.scopes[i]? = some t →
    w'.scopes[i]? = some t ∧ (w.workspace t).SameReadings (w'.workspace t)

theorem Confined.untouched (h : Confined w₀ n b w) (hw : w₀.Rooted) (hi : i < w₀.scopes.length)
    (hne : i ≠ n) (hs : w₀.scopes[i]? = some s) (hb : b.Apart s.branches) :
    w₀.Untouched w i := by
  intro t ht
  cases hs.symm.trans ht
  exact ⟨(h.others i hi hne).trans ht,
    .of_framed (hw s (List.mem_of_getElem? hs)) h.session hb⟩

end Confined

section Rooted

variable {w : World}

theorem deed_rooted (hw : w.Rooted) (d : Deed) : (w.deed d).Rooted := by
  have hrange := deed_inRange (fun s hs => (hw s hs).toInRange) d
  cases d with
  | act a => exact act_rooted hw a
  | start config =>
    intro r hr
    have htables := w.session.tableIds.lt_add 0
    have harrays := w.session.arrayIds.lt_add 0
    rcases List.mem_append.1 hr with hs | hs
    · exact { hrange r hr with
        tableIds := (hw r hs).tableIds.trans htables
        arrayIds := (hw r hs).arrayIds.trans harrays }
    · obtain rfl := List.mem_singleton.1 hs
      exact { hrange _ hr with tableIds := htables, arrayIds := harrays }
  | derive i level policy =>
    simp only [deed] at hrange ⊢
    rcases hs : w.scopes[i]? with _ | s <;> rw [hs] at hrange
    · exact hw
    · intro r hr
      have hroot := hw s (List.mem_of_getElem? hs)
      have htables := w.session.tableIds.inherit_lt hroot.tableIds (policy .tableIds)
      have harrays := w.session.arrayIds.inherit_lt hroot.arrayIds (policy .arrayIds)
      rcases List.mem_append.1 hr with hs | hs
      · exact { hrange r hr with
          tableIds := (hw r hs).tableIds.trans_le htables.2
          arrayIds := (hw r hs).arrayIds.trans_le harrays.2 }
      · obtain rfl := List.mem_singleton.1 hs
        exact { hrange _ hr with tableIds := htables.1, arrayIds := harrays.1 }

theorem deeds_rooted (hw : w.Rooted) (ds : List Deed) : (w.deeds ds).Rooted := by
  induction ds generalizing w with
  | nil => exact hw
  | cons d ds ih => exact ih (deed_rooted hw d)

theorem empty_rooted : empty.Rooted := fun _ hs => (List.not_mem_nil hs).elim

/-- The scopes were numbered by the session. -/
def Numbered (w : World) : Prop := ∀ s ∈ w.scopes, s.number < w.session.scopes

theorem opened_numbered (hw : w.Numbered) {session : Session} {child : Scope}
    (hc : child.number = w.session.scopes) (hn : session.scopes = w.session.scopes + 1) :
    Numbered ⟨session, w.scopes ++ [child], w.issued⟩ := by
  intro s hs
  show s.number < session.scopes
  rcases List.mem_append.1 hs with hs | hs
  · have hlt := hw s hs
    omega
  · rw [List.mem_singleton.1 hs]
    omega

theorem act_numbered (hw : w.Numbered) (a : Act) : (w.act a).Numbered := by
  cases a with
  | operate i o =>
    rcases hs : w.scopes[i]? with _ | s
    · rw [act, next_call_none w o hs]
      exact hw
    · rw [act, next_call w o hs]
      intro r hr
      show r.number < (o.sessionAfter (w.workspace s)).scopes
      rw [o.sessionAfter_scopes]
      rcases List.mem_or_eq_of_mem_set hr with hr | rfl
      · exact hw r hr
      · exact (o.scopeStep_grows (w.workspace s)).number ▸ hw s (List.mem_of_getElem? hs)
  | fork i purpose =>
    simp only [act, next]
    rcases w.scopes[i]? with _ | s
    · exact hw
    · simp only
      rcases hf : w.session.fork s purpose with e | ⟨child, session⟩
      · exact hw
      · exact opened_numbered hw (Session.fork_number hf).1 (Session.fork_number hf).2
  | lower i t body =>
    simp only [act]
    rcases w.scopes[i]? with _ | s
    · exact hw
    · have hfollows := Computation.relates_follows.lower
        (fun w => Computation.relates_follows.run body body.uses_true w) t ⟨w.session, s⟩
      exact fun r hr => (hw r hr).trans_le hfollows.scopes

theorem deed_numbered (hw : w.Numbered) (d : Deed) : (w.deed d).Numbered := by
  cases d with
  | act a => exact act_numbered hw a
  | start config =>
    exact opened_numbered hw rfl rfl
  | derive i level policy =>
    simp only [deed]
    rcases w.scopes[i]? with _ | s
    · exact hw
    · exact opened_numbered hw rfl rfl

theorem deeds_numbered (hw : w.Numbered) (ds : List Deed) : (w.deeds ds).Numbered := by
  induction ds generalizing w with
  | nil => exact hw
  | cons d ds ih => exact ih (deed_numbered hw d)

theorem empty_numbered : empty.Numbered := fun _ hs => (List.not_mem_nil hs).elim

end Rooted

end World

end SmtLowering
