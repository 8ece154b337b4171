import SmtLowering.Proofs.Keeps
import SmtLowering.Proofs.Recorded

/-!
# Values of another scope

An operation that succeeds although an operand is a node of another scope has built nothing: it
answered with a truth value or an operand (`Operation.run_foreign`). Its plan either answers without
a look at the scope, or makes every operand but literals an operand of a node
(`Primitive.plan_covers`), and what becomes an operand of a node is refused when it is foreign.

A conjunction of many values stops building at the first foreign one (`Operation.run_all_foreign`).
-/

namespace SmtLowering

namespace Value

/-- A node of another scope than the one of this number. -/
def Foreign (number : Nat) : Value → Prop
  | .concrete _ => False
  | .symbolic _ _ owner => owner ≠ number

theorem Foreign.isConcrete {number : Nat} {v : Value} (h : v.Foreign number) :
    v.isConcrete = false := by
  cases v with
  | concrete c => exact h.elim
  | symbolic n k owner => rfl

/-- An answer that needs no node: a truth value or one of the values themselves. -/
def AnsweredFrom (vs : List Value) (u : Value) : Prop := (∃ b, u = .bool b) ∨ u ∈ vs

end Value

namespace Plan

/-- No operand is left out: all but literals are in the node, if one is made, and what is given
without one is a truth value, an operand or computed from literals alone. -/
def Covers (vs : List Value) : Plan → Prop
  | .give u => u.AnsweredFrom vs ∨ ∀ v ∈ vs, v.isConcrete
  | .refuse _ => True
  | .node _ _ us _ => ∀ v ∈ vs, v.isConcrete ∨ v ∈ us

theorem Follows.covers {vs : List Value} {k? : Option Kind} {p : Plan} (h : p.Follows vs k?) :
    p.Covers vs := by
  cases h with
  | kindMismatch | invalidOperand | violation => trivial
  | truth b | decided b => exact .inl (.inl ⟨b, rfl⟩)
  | operand hv => exact .inl (.inr hv)
  | foldedUnary _ hall | foldedBinary _ _ hall => exact .inr hall
  | node _ hall => exact hall

/-- Only literals are folded. -/
theorem isConcrete_of_foldBinary? {a b : Value} {op : Op} {k : Kind} {c : Literal}
    (h : Build.foldBinary? op a b k = some c) : ∀ v ∈ [a, b], v.isConcrete := by
  cases a with
  | concrete d =>
    cases b with
    | concrete e => simp [Value.isConcrete]
    | symbolic n k owner => cases h
  | symbolic n k owner => cases h

end Plan

theorem Primitive.plan_covers (p : Primitive) : p.plan.Covers p.operands := p.plan_follows.covers

namespace Build

variable {α β : Type} {s : Scope}

/-- If the step succeeds, its result and the scope that it leaves satisfy `P`. -/
def Yields (m : Build α) (s : Scope) (P : α → Scope → Prop) : Prop :=
  ∀ a t, outcome m s = (.ok a, t) → P a t

section Rules

variable {m : Build α} {P : α → Scope → Prop}

theorem yields_pure {a : α} (h : P a s) : Yields (pure a) s P := by
  intro b t hb
  cases hb
  exact h

theorem yields_throw (f : Fault ValueError) : Yields (throw f) s P := fun _ _ h => by cases h

theorem Yields.bind {f : α → Build β} {Q : β → Scope → Prop} (h : Yields m s P)
    (hf : ∀ a t, P a t → Yields (f a) t Q) : Yields (m >>= f) s Q := by
  intro b u hb
  rw [outcome_bind] at hb
  rcases hm : outcome m s with ⟨_ | a, t⟩ <;> rw [hm] at hb
  · cases hb
  · exact hf a t (h a t hm) b u hb

theorem Yields.map {f : α → β} {Q : β → Scope → Prop} (h : Yields m s P)
    (hf : ∀ a t, P a t → Q (f a) t) : Yields (f <$> m) s Q := by
  rw [map_eq_pure_bind]
  exact h.bind fun a t hp => yields_pure (hf a t hp)

theorem Yields.mono {Q : α → Scope → Prop} (h : Yields m s P) (hpq : ∀ a t, P a t → Q a t) :
    Yields m s Q := fun a t ha => hpq a t (h a t ha)

/-- A step that cannot succeed yields anything, whatever comes after it. -/
theorem Yields.stop {f : α → Build β} {Q : β → Scope → Prop}
    (h : Yields m s fun _ _ => False) : Yields (m >>= f) s Q := h.bind fun _ _ hf => hf.elim

theorem yields_sameKind (op : String) (a b : Value) :
    Yields (sameKind op a b) s fun _ t => t = s := by
  unfold sameKind
  split
  · exact yields_pure rfl
  · exact yields_throw _

theorem yields_require (op : String) (a : Value) (ok : Bool) :
    Yields (require op a ok) s fun _ t => t = s ∧ ok = true := by
  unfold require
  split
  · exact yields_pure ⟨rfl, ‹_›⟩
  · exact yields_throw _

end Rules

section Refused

theorem yields_materialize (v : Value) :
    Yields (materialize v) s fun _ t => t.number = s.number ∧ ¬v.Foreign s.number := by
  intro n t h
  cases v with
  | concrete c =>
    cases h
    exact ⟨(s.constant_grows c).number, id⟩
  | symbolic m k owner =>
    simp only [materialize, outcome_bind, outcome_get] at h
    split_ifs at h with ho
    · cases h
      exact ⟨rfl, fun hf => hf ho⟩
    · cases h

theorem yields_materializeAll (vs : List Value) :
    Yields (vs.mapM materialize) s fun _ t =>
      t.number = s.number ∧ ∀ v ∈ vs, ¬v.Foreign s.number := by
  induction vs generalizing s with
  | nil => exact yields_pure ⟨rfl, by simp⟩
  | cons v vs ih =>
    rw [List.mapM_cons]
    refine (yields_materialize v).bind fun n t ⟨ht, hv⟩ => ih.bind fun ns u ⟨hu, hvs⟩ =>
      yields_pure ⟨hu.trans ht, ?_⟩
    rw [ht] at hvs
    exact List.forall_mem_cons.2 ⟨hv, hvs⟩

variable {vs : List Value} {v : Value} (hf : v.Foreign s.number)
include hf

theorem materializeAll_stops (hv : v ∈ vs) : Yields (vs.mapM materialize) s fun _ _ => False :=
  (yields_materializeAll vs).mono fun _ _ h => h.2 v hv hf

theorem exec_foreign (hv : v ∈ vs) {p : Plan} (hp : p.Covers vs) :
    Yields p.exec s fun u t => t = s ∧ u.AnsweredFrom vs := by
  cases p with
  | give u =>
    refine yields_pure ⟨rfl, hp.resolve_right fun h => ?_⟩
    cases hf.isConcrete.symm.trans (h v hv)
  | refuse f => exact yields_throw f
  | node op domain us k =>
    have hu : v ∈ us := (hp v hv).resolve_left (by simp [hf.isConcrete])
    exact (materializeAll_stops hf hu).stop

theorem binary_stops {a b : Value} (hv : v ∈ [a, b]) (op : Op) (k : Kind) :
    Yields (binary op a b k) s fun _ _ => False := by
  rw [← Plan.exec_binary]
  unfold Plan.binary
  split
  · next c hc => cases hf.isConcrete.symm.trans (Plan.isConcrete_of_foldBinary? hc v hv)
  · exact (materializeAll_stops hf hv).stop

/-- A table takes the nodes of its entries, of the index and of the fallback. -/
theorem tabulate_stops {entries : List Value} {index fallback : Value}
    (hv : v ∈ entries ++ [index, fallback]) (id : Nat) :
    Yields (tabulate id entries index fallback) s fun _ _ => False := by
  simp only [List.mem_append, List.mem_cons, List.not_mem_nil, or_false] at hv
  refine (yields_materializeAll entries).bind fun ns t ⟨ht, hns⟩ => ?_
  refine Yields.bind (P := fun _ u => u.number = t.number) (fun _ u hu => by cases hu; rfl)
    fun _ u hu => ?_
  refine (yields_materialize index).bind fun ni u' ⟨hu', hi⟩ =>
    (yields_materialize fallback).bind fun nd u'' ⟨_, hd⟩ => ?_
  rw [hu', hu, ht] at hd
  rw [hu, ht] at hi
  rcases hv with hv | rfl | rfl
  · exact (hns v hv hf).elim
  · exact (hi hf).elim
  · exact (hd hf).elim

theorem materialize_stops : Yields (materialize v) s fun _ _ => False :=
  (yields_materialize v).mono fun _ _ h => h.2 hf

theorem labelled_stops (label : String) : Yields (labelled label v) s fun _ _ => False :=
  (materialize_stops hf).stop

/-- What is recorded unless it is constantly true is not recorded when it is foreign. -/
theorem labelled_unless_stops (label : String) (ok : Build Unit) (record : Labelled → Build Unit) :
    Yields (if v.asBool? = some true then ok else labelled label v >>= record) s
      fun _ _ => False := by
  split_ifs with h
  · cases hf.isConcrete.symm.trans (Value.isConcrete_of_asBool? h)
  · exact (labelled_stops hf label).stop

end Refused

section Conjunction

variable {acc v : Value} {vs : List Value}

/-- What a conjunction is from its first foreign operand on: false, or one of the foreign values. -/
def Settled (number : Nat) (vs : List Value) (u : Value) : Prop :=
  u = .bool false ∨ u.Foreign number ∧ u ∈ vs

theorem Settled.mono {number : Nat} {u : Value} {us : List Value} (h : Settled number vs u)
    (hs : ∀ x ∈ vs, x.Foreign number → x ∈ us) : Settled number us u :=
  h.imp_right fun ⟨hf, hm⟩ => ⟨hf, hs u hm hf⟩

theorem yields_and_settled (h : acc = .bool false ∨ acc.Foreign s.number ∨ v.Foreign s.number) :
    Yields (and acc v) s fun u t => t = s ∧ Settled s.number [acc, v] u := by
  refine (yields_sameKind _ _ _).bind fun _ t ht => (yields_require _ _ _).bind
    fun _ t' ⟨ht', _⟩ => ?_
  subst ht ht'
  have hconcrete {u : Value} {b : Bool} (hb : u.asBool? = some b) : ¬u.Foreign t'.number :=
    fun hf => by cases hf.isConcrete.symm.trans (Value.isConcrete_of_asBool? hb)
  rcases ha : acc.asBool? with _ | _ | _
  · -- the conjunction so far is no literal, so it is foreign or the next operand is
    have hf : acc.Foreign t'.number ∨ v.Foreign t'.number := by
      refine h.resolve_left ?_
      rintro rfl
      cases ha
    rcases hv : v.asBool? with _ | _ | _
    · have hstops : Yields (binary .and acc v acc.kind) t' fun _ _ => False := by
        rcases hf with hf | hf
        · exact binary_stops hf (by simp) _ _
        · exact binary_stops hf (by simp) _ _
      exact hstops.mono fun _ _ h => h.elim
    · exact yields_pure ⟨rfl, .inl rfl⟩
    · exact yields_pure ⟨rfl, .inr ⟨hf.resolve_right (hconcrete hv), by simp⟩⟩
  · exact yields_pure ⟨rfl, .inl rfl⟩
  · have hf : v.Foreign t'.number := by
      refine (h.resolve_left ?_).resolve_left (hconcrete ha)
      rintro rfl
      cases ha
    rcases hv : v.asBool? with _ | _ | _
    · exact yields_pure ⟨rfl, .inr ⟨hf, by simp⟩⟩
    · exact yields_pure ⟨rfl, .inl rfl⟩
    · exact (hconcrete hv hf).elim

theorem yields_foldlM_settled (h : acc = .bool false ∨ acc.Foreign s.number) :
    Yields (vs.foldlM and acc) s fun u t => t = s ∧ Settled s.number (acc :: vs) u := by
  induction vs generalizing acc with
  | nil => exact yields_pure ⟨rfl, h.imp_right fun hf => ⟨hf, by simp⟩⟩
  | cons v vs ih =>
    rw [List.foldlM_cons]
    refine (yields_and_settled (h.imp_right .inl)).bind fun u t ⟨ht, hu⟩ => ?_
    subst ht
    refine (ih (hu.imp_right And.left)).mono fun u' t' ⟨ht', hu'⟩ => ⟨ht', ?_⟩
    rcases hu with rfl | ⟨-, hm⟩
    · refine hu'.mono fun x hx hf => ?_
      rcases List.mem_cons.1 hx with rfl | hx
      · exact hf.elim
      · simp [hx]
    · refine hu'.mono fun x hx _ => ?_
      rcases List.mem_cons.1 hx with rfl | hx
      · rw [List.mem_pair] at hm
        rcases hm with rfl | rfl <;> simp
      · simp [hx]

theorem yields_intern (e : Expr) (k : Kind) :
    Yields (intern e k) s fun u t => t.number = s.number ∧ ¬u.Foreign s.number := by
  intro u t h
  have h : (.ok (s.intern e k).1, (s.intern e k).2) = ((.ok u, t) : Except _ _ × _) := h
  obtain ⟨hu, rfl⟩ := Prod.mk.inj h
  obtain rfl := Except.ok.inj hu
  refine ⟨(s.intern_grows e k).number, ?_⟩
  rcases hl : s.exprIds.lookup e with _ | n
  · rw [Scope.intern_of_lookup_none hl]
    exact fun hf => hf rfl
  · rw [Scope.intern_of_lookup hl]
    exact fun hf => hf rfl

/-- A step over own values gives an own value. -/
theorem yields_exec_own {p : Plan} (hp : p.Within vs) (h : ∀ x ∈ vs, ¬x.Foreign s.number) :
    Yields p.exec s fun u t => t.number = s.number ∧ ¬u.Foreign s.number := by
  cases p with
  | give u =>
    refine yields_pure ⟨rfl, hp.elim (fun hc hf => ?_) (h u)⟩
    cases hf.isConcrete.symm.trans hc
  | refuse f => exact yields_throw f
  | node op domain us k =>
    refine (yields_materializeAll us).bind fun ns t ⟨ht, _⟩ => ?_
    rw [← ht]
    exact yields_intern _ k

/-- Up to its first foreign value a conjunction is built as without the rest, and nothing is built
from there on. -/
theorem yields_foldlM_foreign (hacc : ¬acc.Foreign s.number) (hv : v ∈ vs)
    (hf : v.Foreign s.number) :
    Yields (vs.foldlM and acc) s fun u t => Settled s.number vs u ∧
      ∃ us, us <+: vs ∧ (∀ x ∈ us, ¬x.Foreign s.number) ∧
        t = (outcome (us.foldlM and acc) s).2 := by
  induction vs generalizing acc s with
  | nil => cases hv
  | cons x vs ih =>
    rw [List.foldlM_cons]
    by_cases hx : x.Foreign s.number
    · refine (yields_and_settled (.inr (.inr hx))).bind fun u t ⟨ht, hu⟩ => ?_
      subst ht
      refine (yields_foldlM_settled (hu.imp_right And.left)).mono fun u' t' ⟨ht', hu'⟩ => ?_
      subst ht'
      refine ⟨?_, [], List.nil_prefix, by simp, rfl⟩
      refine hu'.mono fun y hy hyf => ?_
      rcases List.mem_cons.1 hy with rfl | hy
      · rcases hu with rfl | ⟨-, hm⟩
        · exact hyf.elim
        · rw [List.mem_pair] at hm
          rcases hm with rfl | rfl
          · exact (hacc hyf).elim
          · simp
      · simp [hy]
    · intro u' t' h
      rw [outcome_bind] at h
      rcases hand : outcome (and acc x) s with ⟨_ | u, t⟩ <;> rw [hand] at h
      · cases h
      have hown : ∀ y ∈ [acc, x], ¬y.Foreign s.number := by simp [hacc, hx]
      obtain ⟨ht, hu⟩ := yields_exec_own (Primitive.and acc x).plan_within hown u t
        (((Primitive.and acc x).build_eq ▸ rfl : _ = _).trans hand)
      obtain hv := (List.mem_cons.1 hv).resolve_left (fun he => hx (he ▸ hf))
      rw [← ht] at hf hu
      obtain ⟨hs, us, hus, hown, rfl⟩ := ih hu hv hf u' t' h
      rw [ht] at hs hown
      refine ⟨hs.mono fun y hy _ => by simp [hy], x :: us, by simpa using hus,
        List.forall_mem_cons.2 ⟨hx, hown⟩, ?_⟩
      rw [List.foldlM_cons, outcome_bind, hand]

end Conjunction

end Build

namespace Operation

open Build

variable {o : Operation} {w : Workspace} {v : Value}

/-- What the operation does in the scope if it succeeds on a foreign operand: it answers, and asks
nothing of the session. -/
theorem scopeStep_foreign (ho : ∀ vs, o ≠ .all vs) (hv : v ∈ o.operands)
    (hf : v.Foreign w.scope.number) :
    Yields (o.scopeStep w) w.scope fun r t =>
      t = w.scope ∧ o.sessionAfter w = w.session ∧ ∃ u, r = some u ∧ u.AnsweredFrom o.operands := by
  have stops {α β : Type} {f : α → β} {m : Build α} {P : β → Scope → Prop}
      (h : Yields m w.scope fun _ _ => False) : Yields (f <$> m) w.scope P :=
    h.map fun _ _ hf => hf.elim
  cases o with
  | primitive p =>
    exact (exec_foreign hf hv p.plan_covers).map fun u t h => ⟨h.1, rfl, u, rfl, h.2⟩
  | all vs => exact (ho vs rfl).elim
  | apply name result args =>
    refine stops ?_
    have hnode : Yields
        (Plan.node (.apply name) (Work.applicationDomain result args) args result).exec w.scope
        fun _ _ => False := (materializeAll_stops hf hv).stop
    unfold applyKnown
    rcases w.signature? name with _ | declared
    · exact hnode
    · simp only
      split_ifs
      · exact hnode
      · exact yields_throw _
  | lookup entries index fallback =>
    refine Yields.map (P := fun u t => t = w.scope ∧
      sessionAfter w (.lookup entries index fallback) = w.session ∧
        u.AnsweredFrom (entries ++ [index, fallback])) ?_
      fun u t h => ⟨h.1, h.2.1, u, rfl, h.2.2⟩
    refine (yields_require _ _ _).bind fun _ t h => ?_
    obtain ⟨rfl, -⟩ := h
    split
    · exact yields_throw _
    · next hfind =>
      split
      · next i hi =>
        refine yields_pure ⟨rfl, ?_, ?_⟩
        · simp [sessionAfter, needsTable, hi]
        · refine answer_of_forall (fun u hu => .inr ?_) (.inr ?_) i
          · exact List.mem_append_left _ hu
          · simp
      · exact (tabulate_stops hf hv _).mono fun _ _ h => h.elim
  | materialize u =>
    obtain rfl := List.mem_singleton.1 hv
    exact stops (materialize_stops hf)
  | observe label u =>
    obtain rfl := List.mem_singleton.1 hv
    exact stops (labelled_stops hf label).stop
  | constrain label u | assert label u =>
    obtain rfl := List.mem_singleton.1 hv
    refine stops ((yields_require _ _ _).bind fun _ t h => ?_)
    obtain ⟨rfl, -⟩ := h
    exact labelled_unless_stops hf label _ _
  | addOutput u =>
    obtain rfl := List.mem_singleton.1 hv
    exact stops (materialize_stops hf).stop
  | _ => cases hv

/-- An operation that succeeds on a foreign operand leaves the whole workspace as it is and answers
with a truth value or an operand. -/
theorem run_foreign (ho : ∀ vs, o ≠ .all vs) (hv : v ∈ o.operands)
    (hf : v.Foreign w.scope.number) {r : Option Value} {w' : Workspace}
    (h : outcome o.run w = (.ok r, w')) :
    w' = w ∧ ∃ u, r = some u ∧ u.AnsweredFrom o.operands := by
  rw [outcome_run] at h
  obtain ⟨hr, rfl⟩ := Prod.mk.inj h
  obtain ⟨ht, hs, hu⟩ := scopeStep_foreign ho hv hf r _ (Prod.ext hr rfl)
  exact ⟨congrArg₂ Workspace.mk hs ht, hu⟩

/-- A conjunction that succeeds with a foreign value answers with false or a foreign value, and has
built nothing but a conjunction of own values. -/
theorem run_all_foreign {vs : List Value} (hv : v ∈ vs) (hf : v.Foreign w.scope.number)
    {r : Option Value} {w' : Workspace} (h : outcome (all vs).run w = (.ok r, w')) :
    (∃ u, r = some u ∧ u.AnsweredFrom vs) ∧
      ∃ us, us <+: vs ∧ (∀ x ∈ us, ¬x.Foreign w.scope.number) ∧
        w' = (outcome (all us).run w).2 := by
  rw [outcome_run] at h
  obtain ⟨hr, rfl⟩ := Prod.mk.inj h
  have hyields : Yields ((all vs).scopeStep w) w.scope fun r t =>
      (∃ u, r = some u ∧ u.AnsweredFrom vs) ∧ ∃ us, us <+: vs ∧
        (∀ x ∈ us, ¬x.Foreign w.scope.number) ∧ t = (outcome (Build.all us) w.scope).2 :=
    have hown : ¬(Value.bool true).Foreign w.scope.number := id
    (yields_foldlM_foreign hown hv hf).map fun u t ⟨hu, hus⟩ =>
      ⟨⟨u, rfl, hu.imp (fun hb => ⟨false, hb⟩) And.right⟩, hus⟩
  obtain ⟨hu, us, hus, hown, ht⟩ := hyields r _ (Prod.ext hr rfl)
  refine ⟨hu, us, hus, hown, ?_⟩
  rw [outcome_run]
  refine congrArg (Workspace.mk w.session) (ht.trans ?_)
  rw [scopeStep, outcome_map]

end Operation

end SmtLowering
