import Mathlib.Data.List.Nodup
import Mathlib.Logic.Relation
import SmtLowering.Proofs.Repetition
import SmtLowering.Proofs.Scripts

/-!
# Scripts as deeds

A run of a script goes from one `Script.State` to the next, into the bodies that it lowers and on
after them. Its scopes are those of a world (`Script.Tracks`), and what it does there are deeds: a
lowering is a fork, the deeds of its body and, where it enters a result or takes a name back, an
operation on the registries of the scope that it goes to. So wherever a run gets, deeds get as well
(`Script.Steps.enacted`).
-/

namespace SmtLowering

open World

section Registries

variable {s r : Scope}

/-- A fork takes over the level, the configuration and the branches of its parent, and nothing
else. -/
theorem Session.fork_of_grows (h : s.Grows r) (session : Session) (purpose : Purpose) :
    session.fork r purpose = session.fork s purpose := by
  have hfork (p : Scope) : session.fork p purpose =
      session.fork (.blank 0 p.level p.config p.branches) purpose := by
    cases purpose <;> rfl
  rw [hfork r, hfork s, h.level, h.config, h.branches]

/-- A lowering ends in the session of its computation, or with an operation on the registries. -/
theorem Target.conclude_operation (t : Target) (w : Workspace)
    (r : Except (Fault ValueError) NodeId) (c : Workspace) :
    (t.conclude w r c).2 = c.session ∨
      ∃ o : Operation, (∀ w', o.scopeStep w' = pure none) ∧
        ∀ s : Scope, s.branches = w.scope.branches →
          o.sessionAfter ⟨c.session, s⟩ = (t.conclude w r c).2 := by
  rcases t.conclude_cases w r c with ⟨f, h⟩ | ⟨v, a, -, -, h⟩ <;> rw [h]
  · unfold withdraw
    split
    · next name _ _ =>
      split_ifs
      · exact .inl rfl
      · refine .inr ⟨.forgetUninterpreted name, fun _ => rfl, fun s hs => ?_⟩
        simp only [Operation.sessionAfter, Workspace.forgetUninterpreted,
          Workspace.mapUninterpreted, hs]
    · exact .inl rfl
  · cases t with
    | lambda k => exact .inl rfl
    | function name k =>
      refine .inr ⟨.registerDefinition ⟨v.params.map Prod.snd, k⟩ a, fun _ => rfl, fun s hs => ?_⟩
      simp only [Operation.sessionAfter, Target.enter, Workspace.registerDefinition, hs]
    | constraint label =>
      refine .inr ⟨.addAxiom a, fun _ => rfl, fun s hs => ?_⟩
      simp only [Operation.sessionAfter, Target.enter, Workspace.addAxiom, hs]

end Registries

namespace World

variable {W : World} {s : Scope}

theorem deeds_grows (W : World) (ds : List Deed) : W.Grows (W.deeds ds) := by
  induction ds generalizing W with
  | nil => exact .refl W
  | cons d ds ih => exact (W.deed_grows d).trans (ih (W.deed d))

theorem deeds_append (W : World) (ds ds' : List Deed) :
    W.deeds (ds ++ ds') = (W.deeds ds).deeds ds' := List.foldl_append

theorem Grows.length_le {W' : World} (h : W.Grows W') : W.scopes.length ≤ W'.scopes.length := by
  by_contra hlt
  obtain ⟨s, hs, -⟩ := h W'.scopes.length _ (List.getElem?_eq_getElem (Nat.lt_of_not_le hlt))
  exact absurd (List.getElem?_eq_some_iff.1 hs).1 (Nat.lt_irrefl _)

/-- An operation as a deed, in the scope where it is carried out and in the session. -/
theorem deed_operate {i : Nat} (hs : W.scopes[i]? = some s) (o : Operation) :
    (W.deed (.act (.operate i o))).session = (outcome o.run (W.workspace s)).2.session ∧
      (W.deed (.act (.operate i o))).scopes =
        W.scopes.set i (outcome o.run (W.workspace s)).2.scope := by
  have hdeed : W.deed (.act (.operate i o)) = W.put i (outcome o.run (W.workspace s)) := by
    simp only [deed, act, next, hs]
  rw [hdeed]
  exact ⟨rfl, rfl⟩

theorem deed_fork {i : Nat} {purpose : Purpose} {child : Scope} {session : Session}
    (hs : W.scopes[i]? = some s) (hf : W.session.fork s purpose = .ok (child, session)) :
    W.deed (.act (.fork i purpose)) = ⟨session, W.scopes ++ [child], W.issued⟩ := by
  simp only [deed, act, next, hs, hf]

end World

namespace Script

/-- Where a run of a script is: what it does next, in which scope, and what the caller has. -/
structure State where
  script : Script
  frames : Frames
  workspace : Workspace
  caller : Caller

/-- A run goes on after a step that succeeded, or into the body of a lowering. -/
inductive Step : State → State → Prop
  | operate {o next frames w σ r w' σ'} :
    (Work.lift (Work.attempt o.run) : ScriptT _) w σ = ((.ok r, w'), σ') →
    Step ⟨.operate o next, frames, w, σ⟩ ⟨next r, frames, w', σ'⟩
  | visit {k o next frames w σ r w' σ'} :
    visitStep k o w σ = ((.ok r, w'), σ') →
    Step ⟨.visit k o next, frames, w, σ⟩ ⟨next r, frames, w', σ'⟩
  | inspect {p next frames w σ s v w' σ'} :
    place frames p w σ = ((.ok s, w), σ) → look s w σ = ((.ok v, w'), σ') →
    Step ⟨.inspect p next, frames, w, σ⟩ ⟨next v, frames, w', σ'⟩
  | fork {p purpose next frames w σ s r w' σ'} :
    place frames p w σ = ((.ok s, w), σ) → hold s purpose w σ = ((.ok r, w'), σ') →
    Step ⟨.fork p purpose next, frames, w, σ⟩ ⟨next r, frames, w', σ'⟩
  | enter {p t body next frames w σ s child session} :
    place frames p w σ = ((.ok s, w), σ) → t.start ⟨w.session, s⟩ = .ok (child, session) →
    Step ⟨.lower p t body next, frames, w, σ⟩
      ⟨body, (s, t) :: frames, ⟨session, child⟩, (note frames s t w σ).2⟩
  | lower {p t body next frames w σ s r w' σ'} :
    place frames p w σ = ((.ok s, w), σ) →
    (Lowering.nested fun _ => t.lower s (body.run ((s, t) :: frames)) : ScriptT _) w
      (note frames s t w σ).2 = ((.ok r, w'), σ') →
    Step ⟨.lower p t body next, frames, w, σ⟩ ⟨next r, frames, w', σ'⟩

/-- One state of a run and a later one. -/
abbrev Steps : State → State → Prop := Relation.ReflTransGen Step

/-- The operation is next, in the workspace `u`. -/
def State.Performs : State → Operation → Workspace → Prop
  | ⟨.operate o _, _, w, _⟩, o', u => o = o' ∧ w = u
  | ⟨.visit k o _, _, w, σ⟩, o', u => o = o' ∧ ∃ s, σ.held[k]? = some s ∧ ⟨w.session, s⟩ = u
  | _, _, _ => False

/-- The scopes of a run as scopes of a world: its own one, the forks that are held, and those that
the lowerings under way go to, which may have grown since. -/
structure Tracks (W : World) (i : Nat) (forks : List Nat) (frames : Frames) (w : Workspace)
    (σ : Caller) : Prop where
  session : W.session = w.session
  here : W.scopes[i]? = some w.scope
  length : forks.length = σ.held.length
  held : ∀ k j : Nat, forks[k]? = some j → W.scopes[j]? = σ.held[k]?
  nodup : (i :: forks).Nodup
  outer : ∀ p ∈ frames, ∃ (j : Nat) (s : Scope), W.scopes[j]? = some s ∧ p.1.Grows s

/-- Deeds lead to the scopes of `w` and `σ`, and leave alone those that the run does not have. -/
def Enacted (W : World) (i : Nat) (forks : List Nat) (frames : Frames) (w : Workspace)
    (σ : Caller) : Prop :=
  ∃ ds forks', Tracks (W.deeds ds) i forks' frames w σ ∧
    (∀ j ∈ forks', j ∈ forks ∨ W.scopes.length ≤ j) ∧
    ∀ j < W.scopes.length, j ∉ i :: forks → (W.deeds ds).scopes[j]? = W.scopes[j]?

section Tracks

variable {W W' : World} {i j k : Nat} {forks forks' : List Nat} {frames : Frames}
  {w w' : Workspace} {σ σ' : Caller} {s child : Scope} {session : Session}

theorem Tracks.held_lt (h : Tracks W i forks frames w σ) (hj : j ∈ forks) :
    j < W.scopes.length := by
  obtain ⟨k, hk⟩ := List.mem_iff_getElem?.1 hj
  have hlt : k < σ.held.length := h.length ▸ (List.getElem?_eq_some_iff.1 hk).1
  have hs := h.held k j hk
  rw [List.getElem?_eq_getElem hlt] at hs
  exact (List.getElem?_eq_some_iff.1 hs).1

theorem Tracks.held_get (h : Tracks W i forks frames w σ) (hk : σ.held[k]? = some s) :
    ∃ j : Nat, forks[k]? = some j ∧ W.scopes[j]? = some s := by
  have hlt : k < forks.length := h.length ▸ (List.getElem?_eq_some_iff.1 hk).1
  have hj := List.getElem?_eq_getElem hlt
  exact ⟨_, hj, (h.held k _ hj).trans hk⟩

/-- What is looked at and noted does not matter. -/
theorem Tracks.caller (h : Tracks W i forks frames w σ) (hheld : σ'.held = σ.held) :
    Tracks W i forks frames w σ' :=
  { h with length := hheld ▸ h.length, held := hheld ▸ h.held }

/-- Scopes that the lowerings under way go to are found again later. -/
theorem Tracks.outer_grows (h : Tracks W i forks frames w σ) (hg : W.Grows W') :
    ∀ p ∈ frames, ∃ (j : Nat) (s : Scope), W'.scopes[j]? = some s ∧ p.1.Grows s := by
  intro p hp
  obtain ⟨j, s, hs, hps⟩ := h.outer p hp
  obtain ⟨s', hs', hss'⟩ := hg j s hs
  exact ⟨j, s', hs', hps.trans hss'⟩

/-- After a change of the own scope. -/
theorem Tracks.here_set (h : Tracks W i forks frames w σ) (hg : W.Grows W')
    (hsession : W'.session = w'.session) (hscopes : W'.scopes = W.scopes.set i w'.scope) :
    Tracks W' i forks frames w' σ := by
  refine { h with
    session := hsession
    here := ?_
    held := fun k j hk => ?_
    outer := h.outer_grows hg }
  · rw [hscopes, List.getElem?_set_self (List.getElem?_eq_some_iff.1 h.here).1]
  · have hne : i ≠ j := by
      rintro rfl
      exact (List.nodup_cons.1 h.nodup).1 (List.mem_of_getElem? hk)
    rw [hscopes, List.getElem?_set_ne hne]
    exact h.held k j hk

/-- After a change of a fork that is held. -/
theorem Tracks.held_set (h : Tracks W i forks frames w σ) (hg : W.Grows W')
    (hk : forks[k]? = some j) (hscopes : W'.scopes = W.scopes.set j s) :
    Tracks W' i forks frames ⟨W'.session, w.scope⟩ { σ with held := σ.held.set k s } := by
  have hj := List.mem_of_getElem? hk
  have hne : j ≠ i := by
    rintro rfl
    exact (List.nodup_cons.1 h.nodup).1 hj
  refine ⟨rfl, ?_, by simp [h.length], fun k' j' hk' => ?_, h.nodup, h.outer_grows hg⟩
  · rw [hscopes, List.getElem?_set_ne hne]
    exact h.here
  · rw [hscopes]
    by_cases heq : k' = k
    · subst heq
      obtain rfl := Option.some.inj (hk'.symm.trans hk)
      rw [List.getElem?_set_self (h.held_lt hj), List.getElem?_set_self]
      exact h.length ▸ (List.getElem?_eq_some_iff.1 hk).1
    · have hjne : j ≠ j' := by
        rintro rfl
        exact heq ((List.getElem?_inj (List.getElem?_eq_some_iff.1 hk').1
          (List.nodup_cons.1 h.nodup).2).1 (hk'.trans hk.symm))
      rw [List.getElem?_set_ne hjne, List.getElem?_set_ne (Ne.symm heq)]
      exact h.held k' j' hk'

/-- After a fork that is held from then on. -/
theorem Tracks.held_append (h : Tracks W i forks frames w σ) :
    Tracks ⟨session, W.scopes ++ [child], W.issued⟩ i (forks ++ [W.scopes.length]) frames
      ⟨session, w.scope⟩ { σ with held := σ.held ++ [child] } := by
  have hi := (List.getElem?_eq_some_iff.1 h.here).1
  refine ⟨rfl, (List.getElem?_append_left hi).trans h.here, by simp [h.length],
    fun k j hk => ?_, ?_, h.outer_grows (grows_opened W session child)⟩
  · rcases Scope.getElem?_snoc hk with hk | ⟨rfl, rfl⟩
    · have hlt : k < σ.held.length := h.length ▸ (List.getElem?_eq_some_iff.1 hk).1
      rw [List.getElem?_append_left (h.held_lt (List.mem_of_getElem? hk)),
        List.getElem?_append_left hlt]
      exact h.held k j hk
    · rw [List.getElem?_concat_length, h.length, List.getElem?_concat_length]
  · refine Scope.nodup_snoc h.nodup fun hmem => ?_
    rcases List.mem_cons.1 hmem with hlast | hmem
    · exact absurd hi (hlast ▸ Nat.lt_irrefl _)
    · exact Nat.lt_irrefl _ (h.held_lt hmem)

theorem Enacted.refl (h : Tracks W i forks frames w σ) : Enacted W i forks frames w σ :=
  ⟨[], forks, h, fun _ hj => .inl hj, fun _ _ _ => rfl⟩

theorem Enacted.of_deed {d : Deed} (h : Tracks (W.deed d) i forks' frames w σ)
    (hnew : ∀ j ∈ forks', j ∈ forks ∨ W.scopes.length ≤ j)
    (hsame : ∀ j < W.scopes.length, j ∉ i :: forks → (W.deed d).scopes[j]? = W.scopes[j]?) :
    Enacted W i forks frames w σ :=
  ⟨[d], forks', h, hnew, hsame⟩

theorem Enacted.trans {ds : List Deed} (hnew : ∀ j ∈ forks', j ∈ forks ∨ W.scopes.length ≤ j)
    (hsame : ∀ j < W.scopes.length, j ∉ i :: forks → (W.deeds ds).scopes[j]? = W.scopes[j]?)
    (h : Enacted (W.deeds ds) i forks' frames w σ) : Enacted W i forks frames w σ := by
  obtain ⟨ds', forks'', ht, hnew', hsame'⟩ := h
  have hle := (W.deeds_grows ds).length_le
  rw [← deeds_append] at ht
  refine ⟨ds ++ ds', forks'', ht, fun j hj => ?_, fun j hj hnot => ?_⟩
  · rcases hnew' j hj with hj | hj
    · exact hnew j hj
    · exact .inr (hle.trans hj)
  · rw [deeds_append, ← hsame j hj hnot]
    refine hsame' j (hj.trans_le hle) fun hmem => ?_
    rcases List.mem_cons.1 hmem with rfl | hmem
    · exact hnot List.mem_cons_self
    · rcases hnew j hmem with hmem | hge
      · exact hnot (List.mem_cons_of_mem _ hmem)
      · exact absurd hj (Nat.not_lt_of_le hge)

end Tracks

section Steps

variable {α β : Type} {W : World} {i j k : Nat} {forks : List Nat} {frames : Frames}
  {w : Workspace} {σ : Caller} {s r : Scope} {t : Target}

/-- What the step does, whether or not it succeeds, can be done by deeds. -/
abbrev Enacts (W : World) (i : Nat) (forks : List Nat) (frames : Frames) (x : ScriptT α)
    (w : Workspace) (σ : Caller) : Prop :=
  Enacted W i forks frames (x w σ).1.2 (x w σ).2

theorem Enacts.bind {x : ScriptT α} {f : α → ScriptT β} (hx : Enacts W i forks frames x w σ)
    (hf : ∀ a w' σ' W' forks', x w σ = ((.ok a, w'), σ') → Tracks W' i forks' frames w' σ' →
      Enacts W' i forks' frames (f a) w' σ') :
    Enacts W i forks frames (x >>= f) w σ := by
  unfold Enacts at hx ⊢
  rw [bind_run]
  rcases hxw : x w σ with ⟨⟨_ | a, w'⟩, σ'⟩ <;> rw [hxw] at hx
  · exact hx
  · obtain ⟨ds, forks', ht, hnew, hsame⟩ := hx
    exact .trans hnew hsame (hf a w' σ' _ forks' hxw ht)

theorem enacts_operate (h : Tracks W i forks frames w σ) (o : Operation) :
    Enacts W i forks frames (Work.lift (Work.attempt o.run)) w σ := by
  obtain ⟨hsession, hscopes⟩ := deed_operate h.here o
  rw [workspace, h.session] at hsession hscopes
  rw [Enacts, lift_run, Work.attempt_workspace]
  refine .of_deed (h.here_set (W.deed_grows _) hsession hscopes) (fun _ hj => .inl hj)
    fun j _ hnot => ?_
  rw [hscopes, List.getElem?_set_ne (List.ne_of_not_mem_cons hnot).symm]

theorem enacts_visitStep (h : Tracks W i forks frames w σ) (k : Nat) (o : Operation) :
    Enacts W i forks frames (visitStep k o) w σ := by
  unfold Enacts visitStep
  rcases hk : σ.held[k]? with _ | s
  · exact .refl h
  · obtain ⟨j, hj, hs⟩ := h.held_get hk
    obtain ⟨hsession, hscopes⟩ := deed_operate hs o
    rw [workspace, h.session] at hsession hscopes
    have ht := h.held_set (W.deed_grows _) hj hscopes
    rw [hsession] at ht
    simp only [Work.attempt_workspace]
    refine .of_deed ht (fun _ hm => .inl hm) fun m _ hnot => ?_
    have hne : j ≠ m := by
      rintro rfl
      exact hnot (List.mem_cons_of_mem _ (List.mem_of_getElem? hj))
    rw [hscopes, List.getElem?_set_ne hne]

/-- A place is a scope of the world, as it was at some time, or there is none. -/
theorem Tracks.place_cases (h : Tracks W i forks frames w σ) (p : Place) :
    (∃ (s r : Scope) (j : Nat), place frames p w σ = ((.ok s, w), σ) ∧ W.scopes[j]? = some r ∧
      s.Grows r) ∨
    ∃ e, place frames p w σ = ((.error e, w), σ) := by
  cases p with
  | here => exact .inl ⟨w.scope, w.scope, i, rfl, h.here, .refl _⟩
  | outer k =>
    rcases hk : frames[k]? with _ | q <;> simp only [Script.place, hk]
    · exact .inr ⟨_, rfl⟩
    · obtain ⟨j, r, hr, hqr⟩ := h.outer q (List.mem_of_getElem? hk)
      exact .inl ⟨q.1, r, j, rfl, hr, hqr⟩
  | held k =>
    rcases hk : σ.held[k]? with _ | s <;> simp only [Script.place, hk]
    · exact .inr ⟨_, rfl⟩
    · obtain ⟨j, -, hs⟩ := h.held_get hk
      exact .inl ⟨s, s, j, rfl, hs, .refl s⟩

theorem Tracks.place {p : Place} (h : Tracks W i forks frames w σ)
    (hp : place frames p w σ = ((.ok s, w), σ)) :
    ∃ (j : Nat) (r : Scope), W.scopes[j]? = some r ∧ s.Grows r := by
  rcases h.place_cases p with ⟨s', r, j, hs, hr⟩ | ⟨e, he⟩
  · cases hs.symm.trans hp
    exact ⟨j, r, hr⟩
  · cases he.symm.trans hp

theorem enacts_place {f : Scope → ScriptT α} (h : Tracks W i forks frames w σ) (p : Place)
    (hf : ∀ (s r : Scope) (j : Nat), W.scopes[j]? = some r → s.Grows r →
      Enacts W i forks frames (f s) w σ) :
    Enacts W i forks frames (place frames p >>= f) w σ := by
  unfold Enacts
  rw [bind_run]
  rcases h.place_cases p with ⟨s, r, j, hp, hr, hsr⟩ | ⟨e, hp⟩ <;> rw [hp]
  · exact hf s r j hr hsr
  · exact .refl h

theorem enacts_look (h : Tracks W i forks frames w σ) (s : Scope) :
    Enacts W i forks frames (look s) w σ := .refl (h.caller rfl)

theorem held_note (s : Scope) (t : Target) : (note frames s t w σ).2.held = σ.held := by
  unfold note
  split <;> rfl

theorem enacts_note {f : Unit → ScriptT α} (s : Scope) (t : Target)
    (hf : Enacts W i forks frames (f ()) w (note frames s t w σ).2) :
    Enacts W i forks frames (note frames s t >>= f) w σ := by
  have hnote : note frames s t w σ = ((.ok (), w), (note frames s t w σ).2) := by
    unfold note
    split <;> rfl
  unfold Enacts at hf ⊢
  rw [bind_run, hnote]
  exact hf

theorem enacts_hold (h : Tracks W i forks frames w σ) (hr : W.scopes[j]? = some r)
    (hsr : s.Grows r) (purpose : Purpose) :
    Enacts W i forks frames (hold s purpose) w σ := by
  unfold Enacts hold
  rcases hf : w.session.fork s purpose with e | ⟨child, session⟩
  · exact .refl h
  · rw [← Session.fork_of_grows hsr, ← h.session] at hf
    have hdeed := deed_fork hr hf
    refine .of_deed (hdeed ▸ h.held_append) (fun m hm => ?_) fun m hm _ => ?_
    · rcases List.mem_append.1 hm with hm | hm
      · exact .inl hm
      · exact .inr (Nat.le_of_eq (List.mem_singleton.1 hm).symm)
    · rw [hdeed, List.getElem?_append_left hm]

/-- An operation on the registries alone, in a scope of the world. -/
theorem enacted_registries (h : Tracks W i forks frames w σ) (hr : W.scopes[j]? = some r)
    {o : Operation} (ho : ∀ w', o.scopeStep w' = pure none) :
    Enacted W i forks frames ⟨o.sessionAfter ⟨w.session, r⟩, w.scope⟩ σ := by
  obtain ⟨hsession, hscopes⟩ := deed_operate hr o
  rw [Operation.outcome_run, ho] at hsession hscopes
  have hset : W.scopes.set j r = W.scopes := by
    obtain ⟨hj, rfl⟩ := List.getElem?_eq_some_iff.1 hr
    exact List.set_getElem_self hj
  replace hscopes : (W.deed (.act (.operate j o))).scopes = W.scopes := hscopes.trans hset
  rw [workspace, h.session] at hsession
  have ht : Tracks (W.deed (.act (.operate j o))) i forks frames
      ⟨o.sessionAfter ⟨w.session, r⟩, w.scope⟩ σ :=
    { h with
      session := hsession
      here := (congrArg (·[i]?) hscopes).trans h.here
      held := fun k m hk => (congrArg (·[m]?) hscopes).trans (h.held k m hk)
      outer := h.outer_grows (W.deed_grows _) }
  exact .of_deed ht (fun _ hj => .inl hj) fun m _ _ => congrArg (·[m]?) hscopes

/-- The scope that a lowering is run in is new, and the others are as before. -/
theorem Tracks.enter {child : Scope} {session : Session} (h : Tracks W i forks frames w σ)
    (hr : W.scopes[j]? = some r) (hsr : s.Grows r)
    (ha : t.start ⟨w.session, s⟩ = .ok (child, session)) :
    W.deed (.act (.fork j t.purpose)) = ⟨session, W.scopes ++ [child], W.issued⟩ ∧
      Tracks ⟨session, W.scopes ++ [child], W.issued⟩ W.scopes.length forks ((s, t) :: frames)
        ⟨session, child⟩ σ := by
  have hf := (Target.start_eq_ok ha).1
  rw [← h.session, ← Session.fork_of_grows hsr] at hf
  have hgrows := grows_opened W session child
  refine ⟨deed_fork hr hf, rfl, List.getElem?_concat_length .., h.length, fun k m hk => ?_, ?_,
    fun p hp => ?_⟩
  · have hm := h.held_lt (List.mem_of_getElem? hk)
    exact (List.getElem?_append_left hm).trans (h.held k m hk)
  · refine List.nodup_cons.2 ⟨fun hmem => ?_, (List.nodup_cons.1 h.nodup).2⟩
    exact Nat.lt_irrefl _ (h.held_lt hmem)
  · rcases List.mem_cons.1 hp with rfl | hp
    · obtain ⟨r', hr', hrr'⟩ := hgrows j r hr
      exact ⟨j, r', hr', hsr.trans hrr'⟩
    · exact h.outer_grows hgrows p hp

/-- The output of a computation is one more operation. -/
theorem enacts_replayed {x : ScriptT Value} (hx : Enacts W i forks frames x w σ) :
    Enacts W i forks frames (Lowering.replayed x) w σ := by
  refine hx.bind fun v w' σ' W' forks' _ ht => ?_
  have hout := enacts_operate ht (.addOutput v)
  rw [Enacts, lift_run, Work.attempt_workspace, ← Work.addOutput_workspace] at hout
  exact hout

/-- After the body of a lowering the run is back in its own scope, which is as it was. -/
theorem Enacted.back {d : Deed} {child : Scope} {c : Workspace} {σ' : Caller}
    (h : Tracks W i forks frames w σ) (hscopes : (W.deed d).scopes = W.scopes ++ [child])
    (hbody : Enacted (W.deed d) W.scopes.length forks ((s, t) :: frames) c σ') :
    Enacted W i forks frames ⟨c.session, w.scope⟩ σ' := by
  obtain ⟨ds, forks', ht, hnew, hsame⟩ := hbody
  have hi := (List.getElem?_eq_some_iff.1 h.here).1
  have hlt : W.scopes.length < (W.deed d).scopes.length := by
    rw [hscopes, List.length_append]
    exact Nat.lt_succ_self _
  have hothers (m : Nat) (hm : m < W.scopes.length) (hnot : m ∉ forks) :
      ((W.deed d).deeds ds).scopes[m]? = W.scopes[m]? := by
    rw [hsame m (hm.trans hlt) (List.not_mem_cons_of_ne_of_not_mem (Nat.ne_of_lt hm) hnot),
      hscopes, List.getElem?_append_left hm]
  obtain ⟨hnot, -⟩ := List.nodup_cons.1 h.nodup
  have hback : Tracks ((W.deed d).deeds ds) i forks' frames ⟨c.session, w.scope⟩ σ' :=
    { ht with
      here := (hothers i hi hnot).trans h.here
      nodup := by
        refine List.nodup_cons.2 ⟨fun hmem => ?_, (List.nodup_cons.1 ht.nodup).2⟩
        rcases hnew i hmem with hmem | hge
        · exact hnot hmem
        · exact absurd (hi.trans hlt) (Nat.not_lt_of_le hge)
      outer := fun p hp => ht.outer p (List.mem_cons_of_mem _ hp) }
  exact ⟨d :: ds, forks', hback, fun m hm => (hnew m hm).imp_right hlt.le.trans,
    fun m hm hnot => hothers m hm (List.not_mem_of_not_mem_cons hnot)⟩

/-- A lowering is a fork, the deeds of its body and what it does to the registries at its end. -/
theorem enacts_nested {x : ScriptT Value} (h : Tracks W i forks frames w σ)
    (hr : W.scopes[j]? = some r) (hsr : s.Grows r)
    (hx : ∀ W i forks w σ, Tracks W i forks ((s, t) :: frames) w σ →
      Enacts W i forks ((s, t) :: frames) x w σ) :
    Enacts W i forks frames (Lowering.nested fun _ => t.lower s x) w σ := by
  unfold Enacts
  rcases ha : t.start ⟨w.session, s⟩ with e | ⟨child, session⟩
  · rw [nested_refused ha]
    exact .refl h
  · obtain ⟨hdeed, htrack⟩ := h.enter hr hsr ha
    have hbody := enacts_replayed (hx _ _ _ _ _ htrack)
    rcases hrun : Lowering.replayed x ⟨session, child⟩ σ with ⟨⟨res, c⟩, σ'⟩
    obtain ⟨res', hres⟩ := nested_run ha hrun
    rw [hres]
    rw [Enacts, hrun, ← hdeed] at hbody
    obtain ⟨ds, forks', ht, hnew, hsame⟩ := Enacted.back h (by rw [hdeed]) hbody
    obtain ⟨r', hr', hrr'⟩ := W.deeds_grows ds j r hr
    refine .trans hnew hsame ?_
    rcases t.conclude_operation ⟨w.session, s⟩ res c with he | ⟨o, ho, he⟩
    · rw [he]
      exact .refl ht
    · rw [← he r' (hsr.trans hrr').branches]
      exact enacted_registries ht hr' ho

/-- Whatever a script does can be done by deeds. -/
theorem enacts_run (c : Script) (h : Tracks W i forks frames w σ) :
    Enacts W i forks frames (c.run frames) w σ := by
  induction c generalizing W i forks frames w σ with
  | result v => exact .refl h
  | abort e => exact .refl h
  | operate o next ih =>
    exact (enacts_operate h o).bind fun r _ _ _ _ _ h' => ih r h'
  | visit k o next ih =>
    exact (enacts_visitStep h k o).bind fun r _ _ _ _ _ h' => ih r h'
  | inspect p next ih =>
    exact enacts_place h p fun s _ _ _ _ =>
      (enacts_look h s).bind fun v _ _ _ _ _ h' => ih v h'
  | fork p purpose next ih =>
    exact enacts_place h p fun s _ _ hr hsr =>
      (enacts_hold h hr hsr purpose).bind fun r _ _ _ _ _ h' => ih r h'
  | lower p t body next ihb ih =>
    refine enacts_place h p fun s r j hr hsr => enacts_note s t ?_
    have hnoted : Tracks W i forks frames w (note frames s t w σ).2 := h.caller (held_note s t)
    exact (enacts_nested hnoted hr hsr fun _ _ _ _ _ h' => ihb h').bind
      fun r _ _ _ _ _ h' => ih r h'

/-- A step of a run can be done by deeds, which lead to the scopes of the next state. -/
theorem Step.enacted {x y : State} (hxy : Step x y)
    (h : Tracks W i forks x.frames x.workspace x.caller) :
    ∃ ds i' forks', Tracks (W.deeds ds) i' forks' y.frames y.workspace y.caller := by
  have tracked {w' : Workspace} {σ' : Caller} (he : Enacted W i forks x.frames w' σ') :
      ∃ ds i' forks', Tracks (W.deeds ds) i' forks' x.frames w' σ' := by
    obtain ⟨ds, forks', ht, -⟩ := he
    exact ⟨ds, i, forks', ht⟩
  cases hxy with
  | @operate o _ _ _ _ _ _ _ hrun =>
    have he := enacts_operate h o
    rw [Enacts, hrun] at he
    exact tracked he
  | @visit k o _ _ _ _ _ _ _ hrun =>
    have he := enacts_visitStep h k o
    rw [Enacts, hrun] at he
    exact tracked he
  | @inspect _ _ _ _ _ s _ _ _ hp hrun =>
    have he := enacts_look h s
    rw [Enacts, hrun] at he
    exact tracked he
  | @fork _ purpose _ _ _ _ _ _ _ _ hp hrun =>
    obtain ⟨j, r, hr, hsr⟩ := h.place hp
    have he := enacts_hold h hr hsr purpose
    rw [Enacts, hrun] at he
    exact tracked he
  | @enter _ t _ _ _ _ _ s _ _ hp ha =>
    obtain ⟨j, r, hr, hsr⟩ := h.place hp
    obtain ⟨hdeed, ht⟩ := h.enter hr hsr ha
    exact ⟨[.act (.fork j t.purpose)], _, forks, (hdeed ▸ ht).caller (held_note s t)⟩
  | @lower _ t body _ frames w σ s _ _ _ hp hrun =>
    obtain ⟨j, r, hr, hsr⟩ := h.place hp
    have he : Enacts W i forks frames
        (Lowering.nested fun _ => t.lower s (body.run ((s, t) :: frames))) w
        (note frames s t w σ).2 :=
      enacts_nested (h.caller (held_note s t)) hr hsr fun _ _ _ _ _ h' => enacts_run body h'
    rw [Enacts, hrun] at he
    exact tracked he

/-- Wherever a run gets from a scope of a world, deeds get as well. -/
theorem Steps.enacted {x y : State} (hxy : Steps x y)
    (h : Tracks W i forks x.frames x.workspace x.caller) :
    ∃ ds i' forks', Tracks (W.deeds ds) i' forks' y.frames y.workspace y.caller := by
  induction hxy with
  | refl => exact ⟨[], i, forks, h⟩
  | tail _ hstep ih =>
    obtain ⟨ds, i', forks', ht⟩ := ih
    obtain ⟨ds', i'', forks'', ht'⟩ := hstep.enacted ht
    exact ⟨ds ++ ds', i'', forks'', (W.deeds_append ds ds').symm ▸ ht'⟩

/-- The workspace of an operation that is next is one of the world. -/
theorem Tracks.performs {x : State} {o : Operation} {u : Workspace}
    (h : Tracks W i forks x.frames x.workspace x.caller) (hu : x.Performs o u) :
    ∃ j : Nat, W.scopes[j]? = some u.scope ∧ W.workspace u.scope = u := by
  obtain ⟨c, frames, w, σ⟩ := x
  have hw (s : Scope) : W.workspace s = ⟨w.session, s⟩ := by rw [workspace, h.session]
  cases c with
  | operate o' next =>
    obtain ⟨-, rfl⟩ := hu
    exact ⟨i, h.here, hw _⟩
  | visit k o' next =>
    obtain ⟨-, s, hk, rfl⟩ := hu
    obtain ⟨j, -, hs⟩ := h.held_get hk
    exact ⟨j, hs, hw s⟩
  | _ => exact hu.elim

end Steps

end Script

end SmtLowering
