import SmtLowering.Proofs.Discipline
import SmtLowering.Proofs.Registries

/-!
# Conforming worlds

A world conforms to a discipline if each of its scopes does, under the signatures that it sees, and
every issued value names a node that its scope may issue. An event keeps that, and all that the
scopes hold (`World.Conforms.next`), if what is asked of expressions outlasts the change of the
signatures.
-/

namespace SmtLowering

namespace World

/-- The signatures that a scope sees. -/
def signatures (w : World) (s : Scope) : Signatures := (w.workspace s).signature?

/-- Scopes stay, and add to what they hold. -/
def Grows (w w' : World) : Prop :=
  ∀ (i : Nat) (s : Scope), w.scopes[i]? = some s → ∃ s', w'.scopes[i]? = some s' ∧ s.Grows s'

structure Conforms (D : Discipline) (w : World) : Prop where
  count : w.session.scopes = w.scopes.length
  number : ∀ (i : Nat) (s : Scope), w.scopes[i]? = some s → s.number = i
  branches : ∀ s ∈ w.scopes, w.session.Has s.branches
  scopes : ∀ s ∈ w.scopes, D.Conforms (w.signatures s) s
  nodes : ∀ n k number, .symbolic n k number ∈ w.issued →
    ∃ s, w.scopes[number]? = some s ∧ D.node s n k
  literals : ∀ c, .concrete c ∈ w.issued → D.literal c

/-- What is asked of expressions outlasts the event's change of the signatures. -/
def Retains (D : Discipline) (w : World) (e : Event) : Prop :=
  ∀ s ∈ w.scopes, ∀ t x k, D.expr (w.signatures s) t x k → D.expr ((w.next e).signatures s) t x k

/-- The literals among the operands are those of the discipline. -/
def Feeds (D : Discipline) : Event → Prop
  | .start _ | .fork .. => True
  | .call _ o => ∀ c, .concrete c ∈ o.operands → D.literal c

variable {D : Discipline} {w : World}

theorem Grows.refl (w : World) : w.Grows w := fun _ s h => ⟨s, h, .refl s⟩

theorem signatures_congr (w : World) {s t : Scope} (h : t.branches = s.branches) :
    w.signatures t = w.signatures s := by
  funext name
  simp only [signatures, workspace, Workspace.signature?, Workspace.userFunctions,
    Workspace.uninterpreted, h]

theorem empty_conforms (D : Discipline) : Conforms D .empty := by
  constructor <;> simp [empty, Session.empty]

/-- An issued value may be met in every scope. -/
theorem Conforms.holds (h : w.Conforms D) {s : Scope} (hs : s ∈ w.scopes) {v : Value}
    (hv : v ∈ w.issued) : D.Holds (· ∈ w.issued) s v := by
  obtain ⟨i, hi⟩ := List.mem_iff_getElem?.1 hs
  cases v with
  | concrete c => exact h.literals c hv
  | symbolic n k number =>
    simp only [Discipline.Holds]
    split_ifs with hn
    · obtain ⟨t, ht, hnode⟩ := h.nodes n k number hv
      rw [hn, h.number i s hi, hi] at ht
      cases ht
      exact hnode
    · exact hv

/-- The signatures that a scope sees after the event suit it as well. -/
theorem Conforms.retained (h : w.Conforms D) {e : Event} (hr : w.Retains D e) {s : Scope}
    (hs : s ∈ w.scopes) : D.Conforms ((w.next e).signatures s) s := by
  have hc := h.scopes s hs
  refine ⟨hc.arena, hc.literals, fun p hp => ?_⟩
  obtain ⟨k, hk, he⟩ := hc.exprs p hp
  exact ⟨k, hk, hr s hs s p.2 k he⟩

section Opened

variable {session : Session} {child : Scope} {level : Nat} {config : Config} {b : BranchIds}

theorem grows_opened (w : World) (session : Session) (child : Scope) :
    w.Grows ⟨session, w.scopes ++ [child], w.issued⟩ := by
  intro i s hs
  refine ⟨s, ?_, .refl s⟩
  rw [← hs]
  exact List.getElem?_append_left (List.getElem?_eq_some_iff.1 hs).1

/-- A blank scope joins the world. -/
theorem Conforms.opened (hD : ∀ σ F, D.Lawful σ F) (h : w.Conforms D)
    (hc : child = .blank w.session.scopes level config b)
    (hn : session.scopes = w.session.scopes + 1) (hb : session.Has child.branches)
    (hx : w.session.Extends session)
    (hr : ∀ s ∈ w.scopes, D.Conforms (signatures ⟨session, w.scopes ++ [child], w.issued⟩ s) s) :
    Conforms D ⟨session, w.scopes ++ [child], w.issued⟩ := by
  have hnumber : child.number = w.scopes.length := by rw [hc, Scope.blank_eq, h.count]
  have split {s : Scope} (hs : s ∈ w.scopes ++ [child]) : s ∈ w.scopes ∨ s = child := by
    simpa using hs
  refine ⟨?_, ?_, ?_, ?_, ?_, h.literals⟩
  · simp [hn, h.count]
  · intro i s hs
    rw [List.getElem?_append] at hs
    split_ifs at hs with hi
    · exact h.number i s hs
    · obtain ⟨hlt, rfl⟩ := List.getElem?_eq_some_iff.1 hs
      rw [List.length_singleton] at hlt
      rw [List.getElem_singleton, hnumber]
      omega
  · intro s hs
    rcases split hs with hs | rfl
    · exact hx.has (h.branches s hs)
    · exact hb
  · intro s hs
    rcases split hs with hs | rfl
    · exact hr s hs
    · rw [hc]
      exact Discipline.conforms_blank (hD _ fun _ => True) _ _ _ _
  · intro n k number hv
    obtain ⟨s, hs, hnode⟩ := h.nodes n k number hv
    exact ⟨s, (List.getElem?_append_left (List.getElem?_eq_some_iff.1 hs).1).trans hs, hnode⟩

end Opened

section Called

variable {i : Nat} {s : Scope} {o : Operation}

theorem grows_called {r : Scope} {session : Session} {issued : List Value}
    (hs : w.scopes[i]? = some s) (hg : s.Grows r) :
    w.Grows ⟨session, w.scopes.set i r, issued⟩ := by
  intro j t ht
  by_cases hj : i = j
  · subst hj
    rw [hs] at ht
    cases ht
    exact ⟨r, List.getElem?_set_self (List.getElem?_eq_some_iff.1 hs).1, hg⟩
  · exact ⟨t, (List.getElem?_set_ne hj).trans ht, .refl t⟩

/-- What an operation does in its scope, and what it issues. -/
theorem Conforms.called (hD : ∀ σ F, D.Lawful σ F) (h : w.Conforms D) (hs : w.scopes[i]? = some s)
    (hsup : w.Supplies (.call i o)) (hfeed : Feeds D (.call i o)) (hr : w.Retains D (.call i o)) :
    Build.Keeps (D.Conforms ((w.next (.call i o)).signatures s)) (o.scopeStep (w.workspace s)) s
      fun r t => ∀ v, r = some v → D.Holds (· ∈ w.issued) t v := by
  have hmem := List.mem_of_getElem? hs
  refine (hD _ _).scopeStep_keeps (h.retained hr hmem) o ?_ ?_
  · intro v hv
    cases v with
    | concrete c => exact hfeed c hv
    | symbolic n k number =>
      rcases hsup _ hv with hv | hv
      · cases hv
      · exact h.holds hmem hv
  · rintro name result args rfl hk
    rw [signatures, workspace, w.next_call _ hs]
    exact Operation.signature?_apply (h.branches s hmem) rfl hk

theorem Conforms.call (hD : ∀ σ F, D.Lawful σ F) (h : w.Conforms D) (hs : w.scopes[i]? = some s)
    (hsup : w.Supplies (.call i o)) (hfeed : Feeds D (.call i o)) (hr : w.Retains D (.call i o)) :
    (w.next (.call i o)).Conforms D ∧ w.Grows (w.next (.call i o)) := by
  obtain ⟨hg, hc, hv⟩ := h.called hD hs hsup hfeed hr
  have hmem := List.mem_of_getElem? hs
  have hx := o.sessionAfter_extends (w.workspace s)
  have hretained := fun t ht => h.retained hr (s := t) ht
  have hnext := w.next_call o hs
  generalize w.next (.call i o) = w' at hc hretained hnext ⊢
  generalize outcome (o.scopeStep (w.workspace s)) s = r at hg hc hv hnext
  have hgrows : w.Grows w' := hnext ▸ grows_called hs hg
  have scope_cases {t : Scope} (ht : t ∈ w'.scopes) : t ∈ w.scopes ∨ t = r.2 := by
    rw [hnext] at ht
    exact List.mem_or_eq_of_mem_set ht
  have issued_cases {v : Value} (hv' : v ∈ w'.issued) :
      v ∈ w.issued ∨ D.Holds (· ∈ w.issued) r.2 v := by
    rw [hnext] at hv'
    exact (List.mem_append.1 hv').imp_right fun hm => hv _ (mem_newlyIssued hm) v rfl
  have hown : w'.scopes[i]? = some r.2 := by
    rw [hnext]
    exact List.getElem?_set_self (List.getElem?_eq_some_iff.1 hs).1
  have hnumber : r.2.number = i := hg.number.trans (h.number i s hs)
  have hold {n : NodeId} {k : Kind} {number : Nat} (hm : .symbolic n k number ∈ w.issued) :
      ∃ t, w'.scopes[number]? = some t ∧ D.node t n k := by
    obtain ⟨t, ht, hnode⟩ := h.nodes n k number hm
    obtain ⟨t', ht', hg'⟩ := hgrows number t ht
    exact ⟨t', ht', (hD (fun _ => none) fun _ => True).node_grows hg' hnode⟩
  refine ⟨⟨?_, ?_, ?_, ?_, ?_, ?_⟩, hgrows⟩
  · rw [hnext]
    simp only [Operation.sessionAfter_scopes, List.length_set]
    exact h.count
  · intro j t ht
    rw [hnext, List.getElem?_set] at ht
    split_ifs at ht with hij hlt
    · cases ht
      exact hnumber.trans hij
    · exact h.number j t ht
  · intro t ht
    have hx' : w.session.Extends w'.session := hnext ▸ hx
    rcases scope_cases ht with ht | rfl
    · exact hx'.has (h.branches t ht)
    · rw [hg.branches]
      exact hx'.has (h.branches s hmem)
  · intro t ht
    rcases scope_cases ht with ht | rfl
    · exact hretained t ht
    · rw [signatures_congr w' hg.branches]
      exact hc
  · intro n k number hm
    rcases issued_cases hm with hm | hm
    · exact hold hm
    · by_cases hn : number = r.2.number
      · subst hn
        exact ⟨r.2, hnumber ▸ hown, (Discipline.holds_own n k).1 hm⟩
      · exact hold ((Discipline.holds_other hn).1 hm)
  · intro c hm
    rcases issued_cases hm with hm | hm
    · exact h.literals c hm
    · exact hm

end Called

/-- An event keeps conformance and what the scopes hold. -/
theorem Conforms.next (hD : ∀ σ F, D.Lawful σ F) (h : w.Conforms D) {e : Event}
    (hsup : w.Supplies e) (hfeed : Feeds D e) (hr : w.Retains D e) :
    (w.next e).Conforms D ∧ w.Grows (w.next e) := by
  cases e with
  | start config =>
    obtain ⟨hb, hx⟩ := w.session.openScope_has config
    exact ⟨h.opened hD rfl rfl hb hx fun s hs => h.retained hr hs, grows_opened _ _ _⟩
  | fork parent purpose =>
    have hret := fun s hs => h.retained hr (s := s) hs
    simp only [World.next] at hret ⊢
    rcases hp : w.scopes[parent]? with _ | s
    · exact ⟨h, .refl w⟩
    · rw [hp] at hret
      simp only at hret ⊢
      rcases fork_cases w.session s purpose with ⟨child, after, hf, hc, hn⟩ | ⟨err, hf⟩
      · rw [hf] at hret ⊢
        obtain ⟨hb, hx⟩ := Session.fork_has (h.branches s (List.mem_of_getElem? hp)) hf
        exact ⟨h.opened hD hc hn hb hx hret, grows_opened _ _ _⟩
      · rw [hf]
        exact ⟨h, .refl w⟩
  | call i o =>
    rcases hs : w.scopes[i]? with _ | s
    · rw [w.next_call_none o hs]
      exact ⟨h, .refl w⟩
    · exact h.call hD hs hsup hfeed hr

end World

end SmtLowering
