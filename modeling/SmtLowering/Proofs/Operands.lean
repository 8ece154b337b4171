import SmtLowering.Proofs.Foreign

/-!
# Operands of a node

The operands of a node are taken one after another. A literal becomes a constant, a value of the
scope is its own node, and the first value of another scope is refused. What the scope is by then
(`Scope.pool`) does not depend on how that ends (`Build.materializeAll_outcome`): it has constants
for the literals up to there and differs in nothing else (`Scope.Pools`).
-/

namespace SmtLowering

namespace Scope

/-- The scope with constants for the literals that come before any value of another scope. -/
def pool (s : Scope) : List Value → Scope
  | [] => s
  | .concrete c :: vs => (s.constant c).2.pool vs
  | .symbolic _ _ owner :: vs => if owner = s.number then s.pool vs else s

/-- The scopes differ in the constants that they have, and so in their nodes and kinds, at most. -/
def Pools (s t : Scope) : Prop :=
  t = { s with
    nodeKinds := t.nodeKinds
    constIds := t.constIds
    constants := t.constants
    kinds := t.kinds }

section Pools

variable {s t u : Scope}

theorem Pools.refl (s : Scope) : s.Pools s := rfl

theorem Pools.trans (h : s.Pools t) (h' : t.Pools u) : s.Pools u := by
  unfold Pools at h h' ⊢
  rw [h] at h'
  exact h'

theorem constant_pools (s : Scope) (c : Literal) : s.Pools (s.constant c).2 := by
  rcases h : s.constIds.lookup c with _ | n
  · rw [constant_of_lookup_none h]
    rfl
  · rw [constant_of_lookup h]
    rfl

theorem pool_pools (s : Scope) (vs : List Value) : s.Pools (s.pool vs) := by
  induction vs generalizing s with
  | nil => exact .refl s
  | cons v vs ih =>
    cases v with
    | concrete c => exact (s.constant_pools c).trans (ih _)
    | symbolic n k owner =>
      simp only [pool]
      split_ifs
      · exact ih s
      · exact .refl s

theorem pool_grows (s : Scope) (vs : List Value) : s.Grows (s.pool vs) := by
  induction vs generalizing s with
  | nil => exact .refl s
  | cons v vs ih =>
    cases v with
    | concrete c => exact (s.constant_grows c).trans (ih _)
    | symbolic n k owner =>
      simp only [pool]
      split_ifs
      · exact ih s
      · exact .refl s

/-- Literals that are constants already add nothing. -/
theorem pool_eq_self {vs : List Value}
    (h : ∀ c, .concrete c ∈ vs → (s.constIds.lookup c).isSome = true) : s.pool vs = s := by
  induction vs with
  | nil => rfl
  | cons v vs ih =>
    have hrest := ih fun c hc => h c (List.mem_cons_of_mem _ hc)
    cases v with
    | concrete c =>
      obtain ⟨n, hn⟩ := Option.isSome_iff_exists.1 (h c List.mem_cons_self)
      rw [pool, constant_of_lookup hn]
      exact hrest
    | symbolic n k owner =>
      rw [pool, hrest, ite_self]

end Pools

end Scope

namespace Build

variable {s : Scope} {vs : List Value}

section Materialize

variable {n : NodeId} {k : Kind} {owner : Nat}

theorem materialize_own (h : owner = s.number) :
    outcome (materialize (.symbolic n k owner)) s = (.ok n, s) := by
  refine (outcome_bind_ok (outcome_get s)).trans ?_
  rw [if_pos h, outcome_pure]

theorem materialize_foreign (h : owner ≠ s.number) :
    outcome (materialize (.symbolic n k owner)) s =
      (.error (.error (.foreignValue n owner s.number)), s) := by
  refine (outcome_bind_ok (outcome_get s)).trans ?_
  rw [if_neg h]
  rfl

end Materialize

/-- The values are all taken as operands. -/
def Taken (s : Scope) (vs : List Value) : Prop :=
  (∀ v ∈ vs, ¬v.Foreign s.number) ∧ ∃ ns, outcome (vs.mapM materialize) s = (.ok ns, s.pool vs)

/-- One of the values is refused as an operand. -/
def Stopped (s : Scope) (vs : List Value) : Prop :=
  ∃ n k owner, .symbolic n k owner ∈ vs ∧ owner ≠ s.number ∧
    outcome (vs.mapM materialize) s =
      (.error (.error (.foreignValue n owner s.number)), s.pool vs)

/-- Operands are all taken, or the first one of another scope is refused. -/
theorem materializeAll_outcome (s : Scope) (vs : List Value) : Taken s vs ∨ Stopped s vs := by
  induction vs generalizing s with
  | nil => exact .inl ⟨by simp, [], rfl⟩
  | cons v vs ih =>
    unfold Taken Stopped
    simp only [List.mapM_cons]
    cases v with
    | concrete c =>
      have hnumber := (s.constant_grows c).number
      have hhead : outcome (materialize (.concrete c)) s =
          (.ok (s.constant c).1, (s.constant c).2) := rfl
      rw [outcome_bind_ok hhead]
      rcases ih (s.constant c).2 with ⟨hown, ns, ho⟩ | ⟨n, k, owner, hm, hne, ho⟩
      · rw [hnumber] at hown
        refine .inl ⟨List.forall_mem_cons.2 ⟨id, hown⟩, (s.constant c).1 :: ns, ?_⟩
        rw [outcome_bind_ok ho]
        rfl
      · rw [hnumber] at hne ho
        refine .inr ⟨n, k, owner, List.mem_cons_of_mem _ hm, hne, ?_⟩
        rw [outcome_bind, ho]
        rfl
    | symbolic m k owner =>
      by_cases hm : owner = s.number
      · rw [outcome_bind_ok (materialize_own hm), Scope.pool, if_pos hm]
        rcases ih s with ⟨hown, ns, ho⟩ | ⟨n, k', owner', hmem, hne, ho⟩
        · refine .inl ⟨List.forall_mem_cons.2 ⟨fun hf => hf hm, hown⟩, m :: ns, ?_⟩
          rw [outcome_bind_ok ho]
          rfl
        · refine .inr ⟨n, k', owner', List.mem_cons_of_mem _ hmem, hne, ?_⟩
          rw [outcome_bind, ho]
      · refine .inr ⟨m, k, owner, List.mem_cons_self, hm, ?_⟩
        rw [outcome_bind, materialize_foreign hm, Scope.pool, if_neg hm]

/-- Values of the scope and literals are taken. -/
theorem materializeAll_own (h : ∀ v ∈ vs, ¬v.Foreign s.number) :
    ∃ ns, outcome (vs.mapM materialize) s = (.ok ns, s.pool vs) := by
  rcases materializeAll_outcome s vs with ⟨-, h⟩ | ⟨n, k, owner, hm, hne, -⟩
  · exact h
  · exact (h _ hm hne).elim

/-- A plan over such values is carried out, unless it refuses. -/
theorem exec_own {p : Plan} (hp : p.Within vs) (hr : ∀ f, p ≠ .refuse f)
    (h : ∀ v ∈ vs, ¬v.Foreign s.number) : ∃ v t, outcome p.exec s = (.ok v, t) := by
  cases p with
  | give v => exact ⟨v, s, rfl⟩
  | refuse f => exact (hr f rfl).elim
  | node op domain us k =>
    obtain ⟨ns, ho⟩ := materializeAll_own fun u hu => h u (hp.1 hu)
    exact ⟨_, _, outcome_bind_ok ho⟩

end Build

end SmtLowering
