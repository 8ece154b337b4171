import SmtLowering.Proofs.OrderlyRuns
import SmtLowering.Proofs.Records
import SmtLowering.Proofs.Targets

/-!
# Forks are isolated

A computation writes the registries of callable functions and of definitions only at the branches of
its own scope or at branches that it adds (`Workspace.Writes`), also where it lowers others. A fork
and the scopes forked from it in turn are a `Family`: none of them is the parent, and after a fork
for a named function none uses a branch that was there before. So whatever happens in the family,
the parent stays as it is, and what it shares with the fork reads the same from both
(`World.fork_isolated`).
-/

namespace SmtLowering

namespace Branches

variable {α : Type} [Inhabited α] {i : Nat} {bs bs' bs'' : Branches α}

/-- What writes behind all branches of `bs` leaves them alone. -/
theorem Framed.trans_behind (h : Framed bs.contents.length bs bs') (h' : Framed i bs' bs'')
    (hi : bs.contents.length ≤ i) : Framed bs.contents.length bs bs'' where
  length_le := Nat.le_trans h.length_le h'.length_le
  get_eq j hj hne :=
    (h'.get_eq j (Nat.lt_of_lt_of_le hj h.length_le) (by omega)).trans (h.get_eq j hj hne)

end Branches

namespace Workspace

/-- Between `w` and `w'`, which are of one scope, only the branches of that scope were written, and
signatures and axioms were not branched. -/
structure Writes (w w' : Workspace) : Prop where
  branches : w'.scope.branches = w.scope.branches
  userFunctions :
    w.session.userFunctions.Framed w.scope.branches.userFunctions w'.session.userFunctions
  definitions :
    w.session.definitions.Framed w.scope.branches.definitions w'.session.definitions
  uninterpreted :
    w'.session.uninterpreted.contents.length = w.session.uninterpreted.contents.length
  axioms : w'.session.axioms.contents.length = w.session.axioms.contents.length

/-- The registries that count are the same. -/
theorem Writes.of_same {w w' : Workspace} (hb : w'.scope.branches = w.scope.branches)
    (hfuns : w'.session.userFunctions = w.session.userFunctions)
    (hdefs : w'.session.definitions = w.session.definitions)
    (hun : w'.session.uninterpreted.contents.length = w.session.uninterpreted.contents.length)
    (hax : w'.session.axioms.contents.length = w.session.axioms.contents.length) :
    w.Writes w' :=
  ⟨hb, hfuns ▸ .refl _ _, hdefs ▸ .refl _ _, hun, hax⟩

theorem Writes.refl (w : Workspace) : w.Writes w := .of_same rfl rfl rfl rfl rfl

theorem Writes.trans {w w' w'' : Workspace} (h : w.Writes w') (h' : w'.Writes w'') :
    w.Writes w'' where
  branches := h'.branches.trans h.branches
  userFunctions := h.userFunctions.trans (h.branches ▸ h'.userFunctions)
  definitions := h.definitions.trans (h.branches ▸ h'.definitions)
  uninterpreted := h'.uninterpreted.trans h.uninterpreted
  axioms := h'.axioms.trans h.axioms

/-- A session that has the registries of a scope keeps them. -/
theorem Writes.inRange {w w' : Workspace} (h : w.Writes w') {s : Scope}
    (hs : InRange ⟨w.session, s⟩) : InRange ⟨w'.session, s⟩ where
  uninterpreted := Nat.lt_of_lt_of_eq hs.uninterpreted h.uninterpreted.symm
  userFunctions := Nat.lt_of_lt_of_le hs.userFunctions h.userFunctions.length_le
  definitions := Nat.lt_of_lt_of_le hs.definitions h.definitions.length_le
  axioms := Nat.lt_of_lt_of_eq hs.axioms h.axioms.symm

end Workspace

section Writes

variable {w : Workspace}

theorem Operation.run_writes (o : Operation) (w : Workspace) : w.Writes (outcome o.run w).2 := by
  rw [outcome_run]
  have hb := (o.scopeStep_grows w).branches
  cases o with
  | registerDefinition sig d =>
    exact ⟨hb, Branches.framed_update _ _, Branches.framed_update _ _, rfl, rfl⟩
  | apply name result args =>
    simp only [sessionAfter]
    rcases w.signature? name with _ | sig
    · exact .of_same hb rfl rfl (Branches.length_update _ _ _) rfl
    · exact .of_same hb rfl rfl rfl rfl
  | lookup entries index fallback =>
    simp only [sessionAfter]
    split_ifs
    · exact .of_same hb rfl rfl rfl rfl
    · exact .of_same hb rfl rfl rfl rfl
  | addAxiom text => exact .of_same hb rfl rfl rfl (Branches.length_update _ _ _)
  | forgetUninterpreted name => exact .of_same hb rfl rfl (Branches.length_update _ _ _) rfl
  | _ => exact .of_same hb rfl rfl rfl rfl

/-- The end of a lowering writes what its parent writes. -/
theorem Target.conclude_writes (t : Target) (w : Workspace)
    (r : Except (Fault ValueError) NodeId) (c : Workspace) :
    Workspace.Writes ⟨c.session, w.scope⟩ ⟨(t.conclude w r c).2, w.scope⟩ := by
  rcases t.conclude_cases w r c with ⟨f, h⟩ | ⟨v, a, -, -, h⟩ <;> rw [h]
  · cases t with
    | lambda k | constraint label => exact .refl _
    | function name k =>
      rcases f with e | v
      · simp only [withdraw]
        split_ifs
        · exact .refl _
        · exact .of_same rfl rfl rfl (Branches.length_update _ _ _) rfl
      · exact .refl _
  · cases t with
    | lambda k => exact .refl _
    | constraint label => exact .of_same rfl rfl rfl rfl (Branches.length_update _ _ _)
    | function name k =>
      exact ⟨rfl, Branches.framed_update _ _, Branches.framed_update _ _, rfl, rfl⟩

/-- What a fork writes is the parent's to write, or the fork's own. -/
theorem Workspace.Writes.of_fork {purpose : Purpose} {child : Scope} {s : Session} {c : Workspace}
    (hf : w.session.fork w.scope purpose = .ok (child, s))
    (h : Workspace.Writes ⟨s, child⟩ c) : w.Writes ⟨c.session, w.scope⟩ := by
  by_cases hp : purpose = .named
  · subst hp
    obtain ⟨rfl, rfl⟩ := Session.fork_named hf
    have hfuns := h.userFunctions
    have hdefs := h.definitions
    simp only [Scope.blank_eq] at hfuns hdefs
    exact ⟨rfl, .of_add hfuns _, .of_add hdefs _, h.uninterpreted, h.axioms⟩
  · obtain ⟨rfl, rfl, -⟩ := Session.fork_shared hf hp
    have hfuns := h.userFunctions
    have hdefs := h.definitions
    simp only [Scope.blank_eq] at hfuns hdefs
    exact ⟨rfl, hfuns, hdefs, h.uninterpreted, h.axioms⟩

/-- A named function's fork leaves its parent's callable functions and definitions alone. -/
theorem Workspace.Writes.named_back {child : Scope} {s : Session} {c : Workspace} (hw : w.InRange)
    (hf : w.session.fork w.scope .named = .ok (child, s))
    (h : Workspace.Writes ⟨s, child⟩ c) :
    (w.resume c.session).userFunctions = w.userFunctions ∧
      (w.resume c.session).definitions = w.definitions := by
  obtain ⟨rfl, rfl⟩ := Session.fork_named hf
  have hfuns := h.userFunctions
  have hdefs := h.definitions
  simp only [Scope.blank_eq] at hfuns hdefs
  refine ⟨?_, ?_⟩
  · exact (Branches.Framed.of_add hfuns _).get_eq _ hw.userFunctions (Nat.ne_of_lt hw.userFunctions)
  · exact (Branches.Framed.of_add hdefs _).get_eq _ hw.definitions (Nat.ne_of_lt hw.definitions)

theorem Computation.relates_writes : Relates (fun _ => True) Workspace.Writes where
  output _ := trivial
  refl := .refl
  trans _ _ _ := Workspace.Writes.trans
  operate o w _ := o.run_writes w
  conclude t w _ _ c r ha h :=
    (Workspace.Writes.of_fork (Target.start_eq_ok ha).1 h).trans (t.conclude_writes w r c)

end Writes

/-- What may be done in a scope: an operation, a fork, or a lowering of a computation. -/
inductive Act
  | operate (scope : Nat) (o : Operation)
  | fork (scope : Nat) (purpose : Purpose)
  | lower (scope : Nat) (t : Target) (body : Computation)

/-- The scope in which it is done. -/
def Act.scope : Act → Nat
  | operate i _ | fork i _ | lower i _ _ => i

namespace World

/-- The world after an act, whether or not it fails. -/
def act (w : World) : Act → World
  | .operate i o => w.next (.call i o)
  | .fork i purpose => w.next (.fork i purpose)
  | .lower i t body =>
    match w.scopes[i]? with
    | none => w
    | some s => { w with session := ((t.lower s body.run).run.run w.session).2 }

def acts (w : World) (as : List Act) : World := as.foldl act w

section InRange

variable {w : World}

/-- The session has the registries of every scope. -/
def InRange (w : World) : Prop := ∀ s ∈ w.scopes, (w.workspace s).InRange

theorem start_inRange (config : Config) : (empty.next (.start config)).InRange := by
  intro s hs
  obtain rfl := List.mem_singleton.1 hs
  exact ⟨Nat.one_pos, Nat.one_pos, Nat.one_pos, Nat.one_pos⟩

theorem fork_inRange {session session' : Session} {s child : Scope} {purpose : Purpose}
    (hs : Workspace.InRange ⟨session, s⟩) (hf : session.fork s purpose = .ok (child, session')) :
    Workspace.InRange ⟨session', child⟩ := by
  by_cases hp : purpose = .named
  · subst hp
    obtain ⟨rfl, rfl⟩ := Session.fork_named hf
    rw [Scope.blank_eq]
    exact ⟨hs.uninterpreted, by simp [Branches.add], by simp [Branches.add], hs.axioms⟩
  · obtain ⟨rfl, rfl, -⟩ := Session.fork_shared hf hp
    rw [Scope.blank_eq]
    exact ⟨hs.uninterpreted, hs.userFunctions, hs.definitions, hs.axioms⟩

theorem act_inRange (hw : w.InRange) (a : Act) : (w.act a).InRange := by
  cases a with
  | operate i o =>
    rcases hs : w.scopes[i]? with _ | s
    · rw [World.act, next_call_none w o hs]
      exact hw
    · rw [World.act, next_call w o hs]
      have hwrites := o.run_writes ⟨w.session, s⟩
      rw [Operation.outcome_run] at hwrites
      intro r hr
      rcases List.mem_or_eq_of_mem_set hr with hr | rfl
      · exact hwrites.inRange (hw r hr)
      · have hrange := hwrites.inRange (hw s (List.mem_of_getElem? hs))
        have hb := hwrites.branches
        exact ⟨hb ▸ hrange.uninterpreted, hb ▸ hrange.userFunctions, hb ▸ hrange.definitions,
          hb ▸ hrange.axioms⟩
  | fork i p =>
    simp only [World.act, next]
    rcases hs : w.scopes[i]? with _ | s
    · exact hw
    · simp only
      rcases hf : w.session.fork s p with e | ⟨child, session⟩
      · exact hw
      · intro r hr
        rcases List.mem_append.1 hr with hr | hr
        · exact (Workspace.Writes.of_fork (w := ⟨w.session, s⟩) hf (.refl _)).inRange (hw r hr)
        · obtain rfl := List.mem_singleton.1 hr
          exact fork_inRange (hw s (List.mem_of_getElem? hs)) hf
  | lower i t body =>
    simp only [World.act]
    rcases hs : w.scopes[i]? with _ | s
    · exact hw
    · have hwrites := Computation.relates_writes.lower
        (fun w => Computation.relates_writes.run body body.uses_true w) t ⟨w.session, s⟩
      exact fun r hr => hwrites.inRange (hw r hr)

end InRange

/-- In `w`, the scopes from the `n`th on are a fork with the branches `b` and what was forked from
it in turn; those before are as in `w₀`. -/
structure Family (w₀ : World) (n : Nat) (purpose : Purpose) (b : BranchIds) (w : World) : Prop where
  before : ∀ i < n, w.scopes[i]? = w₀.scopes[i]?
  fork : ∃ s, w.scopes[n]? = some s ∧ s.branches = b
  /-- After a fork for a named function, the branches that were there before are out of reach. -/
  apart : purpose = .named →
    (∀ i s, n ≤ i → w.scopes[i]? = some s →
      w₀.session.userFunctions.contents.length ≤ s.branches.userFunctions ∧
        w₀.session.definitions.contents.length ≤ s.branches.definitions) ∧
    w₀.session.userFunctions.Framed w₀.session.userFunctions.contents.length
      w.session.userFunctions ∧
    w₀.session.definitions.Framed w₀.session.definitions.contents.length w.session.definitions

section Family

variable {w₀ w : World} {n : Nat} {purpose : Purpose} {b : BranchIds}

theorem Family.run (h : Family w₀ n purpose b w) {i : Nat} {s t : Scope} {session : Session}
    (hi : n ≤ i) (hs : w.scopes[i]? = some s)
    (hw : Workspace.Writes ⟨w.session, s⟩ ⟨session, t⟩) (issued : List Value) :
    Family w₀ n purpose b ⟨session, w.scopes.set i t, issued⟩ where
  before j hj := by
    rw [List.getElem?_set_ne (by omega)]
    exact h.before j hj
  fork := by
    obtain ⟨c, hc, hb⟩ := h.fork
    by_cases he : i = n
    · subst he
      rw [hs] at hc
      cases hc
      refine ⟨t, ?_, hw.branches.trans hb⟩
      rw [List.getElem?_set_self (List.getElem?_eq_some_iff.1 hs).1]
    · exact ⟨c, by rw [List.getElem?_set_ne he, hc], hb⟩
  apart hp := by
    obtain ⟨hbehind, hfuns, hdefs⟩ := h.apart hp
    obtain ⟨hf, hd⟩ := hbehind i s hi hs
    refine ⟨fun j r hj hr => ?_, ?_, ?_⟩
    · by_cases he : i = j
      · subst he
        rw [List.getElem?_set_self (List.getElem?_eq_some_iff.1 hs).1] at hr
        cases hr
        rw [show t.branches = s.branches from hw.branches]
        exact ⟨hf, hd⟩
      · rw [List.getElem?_set_ne he] at hr
        exact hbehind j r hj hr
    · exact hfuns.trans_behind hw.userFunctions hf
    · exact hdefs.trans_behind hw.definitions hd

theorem Family.forked (h : Family w₀ n purpose b w) {i : Nat} {s child : Scope} {p : Purpose}
    {session : Session} (hi : n ≤ i) (hs : w.scopes[i]? = some s)
    (hf : w.session.fork s p = .ok (child, session)) :
    Family w₀ n purpose b ⟨session, w.scopes ++ [child], w.issued⟩ where
  before j hj := by
    obtain ⟨c, hc, -⟩ := h.fork
    have hn := (List.getElem?_eq_some_iff.1 hc).1
    rw [List.getElem?_append_left (by omega)]
    exact h.before j hj
  fork := by
    obtain ⟨c, hc, hb⟩ := h.fork
    exact ⟨c, by rw [List.getElem?_append_left (List.getElem?_eq_some_iff.1 hc).1, hc], hb⟩
  apart hp := by
    obtain ⟨hbehind, hfuns, hdefs⟩ := h.apart hp
    obtain ⟨hsf, hsd⟩ := hbehind i s hi hs
    have hchild : w₀.session.userFunctions.contents.length ≤ child.branches.userFunctions ∧
        w₀.session.definitions.contents.length ≤ child.branches.definitions ∧
        w.session.userFunctions.Framed w.session.userFunctions.contents.length
          session.userFunctions ∧
        w.session.definitions.Framed w.session.definitions.contents.length
          session.definitions := by
      by_cases hpn : p = .named
      · subst hpn
        obtain ⟨rfl, rfl⟩ := Session.fork_named hf
        simp only [Scope.blank_eq]
        exact ⟨hfuns.length_le, hdefs.length_le, .of_add (.refl _ _) _, .of_add (.refl _ _) _⟩
      · obtain ⟨rfl, rfl, -⟩ := Session.fork_shared hf hpn
        simp only [Scope.blank_eq]
        exact ⟨hsf, hsd, .refl _ _, .refl _ _⟩
    obtain ⟨hcf, hcd, hf', hd'⟩ := hchild
    refine ⟨fun j r hj hr => ?_, hfuns.trans_behind hf' hfuns.length_le,
      hdefs.trans_behind hd' hdefs.length_le⟩
    rcases Scope.getElem?_snoc hr with hr | ⟨rfl, rfl⟩
    · exact hbehind j r hj hr
    · exact ⟨hcf, hcd⟩

/-- An act in the family keeps it. -/
theorem Family.act (h : Family w₀ n purpose b w) (a : Act) (ha : n ≤ a.scope) :
    Family w₀ n purpose b (w.act a) := by
  cases a with
  | operate i o =>
    rcases hs : w.scopes[i]? with _ | s
    · rw [World.act, next_call_none w o hs]
      exact h
    · rw [World.act, next_call w o hs]
      have hw := o.run_writes ⟨w.session, s⟩
      rw [Operation.outcome_run] at hw
      exact h.run ha hs hw _
  | fork i p =>
    simp only [World.act, next]
    rcases hs : w.scopes[i]? with _ | s
    · exact h
    · simp only
      rcases hf : w.session.fork s p with e | ⟨child, session⟩
      · exact h
      · exact h.forked ha hs hf
  | lower i t body =>
    simp only [World.act]
    rcases hs : w.scopes[i]? with _ | s
    · exact h
    · have hw := Computation.relates_writes.lower
        (fun w => Computation.relates_writes.run body body.uses_true w) t ⟨w.session, s⟩
      have hset : w.scopes.set i s = w.scopes := by
        obtain ⟨hi, rfl⟩ := List.getElem?_eq_some_iff.1 hs
        exact List.set_getElem_self hi
      have hrun := h.run (i := i) (t := s) ha hs hw w.issued
      rw [hset] at hrun
      exact hrun

theorem Family.acts (h : Family w₀ n purpose b w) (as : List Act) (ha : ∀ a ∈ as, n ≤ a.scope) :
    Family w₀ n purpose b (w.acts as) := by
  induction as generalizing w with
  | nil => exact h
  | cons a as ih =>
    rw [List.forall_mem_cons] at ha
    exact ih (h.act a ha.1) ha.2

end Family

section Isolation

variable {w : World} {i : Nat} {parent child : Scope} {purpose : Purpose} {session : Session}

theorem family_fork (hs : w.scopes[i]? = some parent)
    (hf : w.session.fork parent purpose = .ok (child, session)) :
    Family w w.scopes.length purpose child.branches (w.next (.fork i purpose)) := by
  simp only [next, hs, hf]
  have hlast {j : Nat} {r : Scope} (hj : w.scopes.length ≤ j)
      (hr : (w.scopes ++ [child])[j]? = some r) : r = child := by
    rw [List.getElem?_append_right hj] at hr
    exact List.mem_singleton.1 (List.mem_of_getElem? hr)
  refine ⟨fun j hj => List.getElem?_append_left hj, ⟨child, by simp, rfl⟩, fun hp => ?_⟩
  subst hp
  obtain ⟨rfl, rfl⟩ := Session.fork_named hf
  refine ⟨fun j r hj hr => ?_, .of_add (.refl _ _) _, .of_add (.refl _ _) _⟩
  rw [hlast hj hr, Scope.blank_eq]
  exact ⟨Nat.le_refl _, Nat.le_refl _⟩

/-- What every fork shares with its parent reads the same from both. -/
structure ReadsAs (c p : Workspace) : Prop where
  uninterpreted : c.uninterpreted = p.uninterpreted
  axioms : c.axioms = p.axioms
  tableId : c.takeTableId.1 = p.takeTableId.1
  arrayId : c.takeArrayId.1 = p.takeArrayId.1

/-- Whatever is done in a fork and in the scopes forked from it in turn, whether or not it fails,
the parent's scope stays as it is; the session has to have its registries, as it does from the start
(`start_inRange`) and after every act (`act_inRange`). A fork for a named function does not change
the parent's callable functions and definitions either; with a fork for anything else the parent has
them in common, and with every fork it has the uninterpreted functions, the axioms and the counters
in common. -/
theorem fork_isolated (hs : w.scopes[i]? = some parent)
    (hr : (w.workspace parent).InRange)
    (hf : w.session.fork parent purpose = .ok (child, session)) (as : List Act)
    (ha : ∀ a ∈ as, w.scopes.length ≤ a.scope) {w' : World}
    (hw : w' = (w.next (.fork i purpose)).acts as) :
    w'.scopes[i]? = some parent ∧
    (purpose = .named →
      (w'.workspace parent).userFunctions = (w.workspace parent).userFunctions ∧
      (w'.workspace parent).definitions = (w.workspace parent).definitions) ∧
    ∃ c, w'.scopes[w.scopes.length]? = some c ∧
      ReadsAs (w'.workspace c) (w'.workspace parent) ∧
      (purpose ≠ .named →
        (w'.workspace c).userFunctions = (w'.workspace parent).userFunctions ∧
        (w'.workspace c).definitions = (w'.workspace parent).definitions) := by
  have hfamily := (family_fork hs hf).acts as ha
  rw [← hw] at hfamily
  obtain ⟨c, hc, hb⟩ := hfamily.fork
  refine ⟨(hfamily.before i (List.getElem?_eq_some_iff.1 hs).1).trans hs, fun hp => ?_, c, hc, ?_⟩
  · obtain ⟨-, hfuns, hdefs⟩ := hfamily.apart hp
    exact ⟨hfuns.get_eq _ hr.userFunctions (Nat.ne_of_lt hr.userFunctions),
      hdefs.get_eq _ hr.definitions (Nat.ne_of_lt hr.definitions)⟩
  · by_cases hp : purpose = .named
    · subst hp
      obtain ⟨rfl, -⟩ := Session.fork_named hf
      rw [Scope.blank_eq] at hb
      refine ⟨?_, fun hne => (hne rfl).elim⟩
      constructor <;>
        simp only [workspace, Workspace.uninterpreted, Workspace.axioms, Workspace.takeTableId,
          Workspace.takeArrayId, hb]
    · obtain ⟨rfl, -, -⟩ := Session.fork_shared hf hp
      rw [Scope.blank_eq] at hb
      refine ⟨?_, fun _ => ⟨?_, ?_⟩⟩
      · constructor <;>
          simp only [workspace, Workspace.uninterpreted, Workspace.axioms, Workspace.takeTableId,
            Workspace.takeArrayId, hb]
      · simp only [workspace, Workspace.userFunctions, hb]
      · simp only [workspace, Workspace.definitions, hb]

/-- A session with its outermost scope. -/
def opened : World := empty.next (.start {})

/-- What may happen below a named function's fork: it applies a function, is forked in turn, and
from there defines a function and lowers another one and an axiom. -/
def busyFork : List Act :=
  [.operate 1 (.apply "p" .int []), .fork 1 .lambda,
    .operate 2 (.registerDefinition ⟨[], .int⟩ ⟨"q", .int, ⟨[], [], [], "1"⟩, false⟩),
    .lower 2 (.function "r" .int) (.result (.concrete (.int 1))),
    .operate 1 (.forgetUninterpreted "p"), .operate 2 (.addAxiom "(assert true)")]

theorem fork_isolated_busyFork :
    ((opened.next (.fork 0 .named)).acts busyFork).scopes[0]? = some (Workspace.new {}).scope ∧
      (((opened.next (.fork 0 .named)).acts busyFork).workspace
        (Workspace.new {}).scope).definitions = [] := by
  obtain ⟨child, session, hf⟩ : ∃ child session,
      opened.session.fork (Workspace.new {}).scope .named = .ok (child, session) := ⟨_, _, rfl⟩
  have hisolated := fork_isolated (w := opened) (i := 0) rfl
    (start_inRange {} _ (List.mem_singleton.2 rfl)) hf busyFork (by decide) rfl
  exact ⟨hisolated.1, (hisolated.2.1 rfl).2⟩

end Isolation

end World

end SmtLowering
