import SmtLowering.Proofs.Operands
import SmtLowering.Proofs.Recorded

/-!
# What a refused operation leaves

An operation on values checks kinds and signatures before it does anything, so one that is refused
there leaves everything as it was. A value of another scope is refused only when it is its turn to
become an operand: by then the literals before it are constants of the scope, an application has
declared its function, and a look-up has taken the number of its table, and recorded the table if
all entries are the scope's own (`Operation.remnant`, `Operation.sessionAfter`).
`Operation.run_refused` says that there is nothing else to a refusal.
-/

namespace SmtLowering

/-- A value of another scope was met. -/
def ValueError.isForeign : ValueError → Bool
  | .foreignValue .. => true
  | _ => false

/-- The fault is no complaint about a value of another scope. -/
def Fault.Plain (f : Fault ValueError) : Prop := ∀ e, f = .error e → e.isForeign = false

namespace Plan

/-- What the plan takes as operands of a node. -/
def taken : Plan → List Value
  | .node _ _ us _ => us
  | _ => []

/-- The plan does not itself complain about a value of another scope. -/
def Plain : Plan → Prop
  | .refuse f => f.Plain
  | _ => True

theorem Regular.plain {p : Plan} (h : p.Regular) : p.Plain := by
  cases h with
  | kindMismatch | invalidOperand =>
    rintro _ ⟨⟩
    rfl
  | violation v => rintro _ ⟨⟩
  | give | node => trivial

end Plan

def Scope.addTable (s : Scope) (t : Table) : Scope := { s with tables := s.tables ++ [t] }

/-- The fault is about a value of another scope among the values. -/
def Fault.Meets (f : Fault ValueError) (s : Scope) (vs : List Value) : Prop :=
  ∃ n k owner, .symbolic n k owner ∈ vs ∧ owner ≠ s.number ∧
    f = .error (.foreignValue n owner s.number)

theorem Fault.Meets.not_plain {f : Fault ValueError} {s : Scope} {vs : List Value}
    (h : f.Meets s vs) : ¬f.Plain := by
  obtain ⟨n, k, owner, -, -, rfl⟩ := h
  intro hf
  cases hf _ rfl

namespace Build

variable {α β : Type} {s r : Scope} {us vs : List Value}

/-- If the step fails, the fault and the scope that it leaves satisfy `P`. -/
def Fails (m : Build α) (s : Scope) (P : Fault ValueError → Scope → Prop) : Prop :=
  ∀ f t, outcome m s = (.error f, t) → P f t

/-- The step cannot fail. -/
def Total (m : Build α) : Prop := ∀ s, ∃ a t, outcome m s = (.ok a, t)

/-- A failure before anything is done, or one at a value of another scope, leaving the scope `r`. -/
def Refuses (m : Build α) (s : Scope) (vs : List Value) (r : Scope) : Prop :=
  Fails m s fun f t => f.Plain ∧ t = s ∨ f.Meets s vs ∧ t = r

section Rules

variable {m : Build α} {P : Fault ValueError → Scope → Prop}

theorem Total.fails (h : Total m) : Fails m s P := by
  intro f t hf
  obtain ⟨a, u, ha⟩ := h s
  cases ha.symm.trans hf

theorem Fails.bind {f : α → Build β} (h : Fails m s P) (hf : ∀ a, Total (f a)) :
    Fails (m >>= f) s P := by
  intro e t he
  rw [outcome_bind] at he
  rcases hm : outcome m s with ⟨e' | a, u⟩ <;> rw [hm] at he
  · cases he
    exact h e t hm
  · obtain ⟨b, v, hb⟩ := hf a u
    cases hb.symm.trans he

theorem Fails.map (f : α → β) (h : Fails m s P) : Fails (f <$> m) s P := by
  rw [map_eq_pure_bind]
  exact h.bind fun a t => ⟨_, t, rfl⟩

theorem Fails.mono {Q : Fault ValueError → Scope → Prop} (h : Fails m s P)
    (hpq : ∀ f t, P f t → Q f t) : Fails m s Q := fun f t hf => hpq f t (h f t hf)

theorem Fails.refuses (h : Fails m s fun f t => f.Meets s us ∧ t = r) (hus : us ⊆ vs) :
    Refuses m s vs r := by
  refine h.mono fun f t ⟨⟨n, k, owner, hm, hne, hf⟩, ht⟩ => ?_
  exact .inr ⟨⟨n, k, owner, hus hm, hne, hf⟩, ht⟩

theorem refuses_throw {f : Fault ValueError} (hf : f.Plain) :
    Refuses (throw f : Build α) s vs r := by
  rintro _ _ ⟨⟩
  exact .inl ⟨hf, rfl⟩

theorem refuses_require {op : String} {a : Value} {ok : Bool} {f : Unit → Build β}
    (h : Refuses (f ()) s vs r) : Refuses (require op a ok >>= f) s vs r := by
  cases ok with
  | true => exact h
  | false =>
    rintro _ _ ⟨⟩
    refine .inl ⟨?_, rfl⟩
    rintro _ ⟨⟩
    rfl

end Rules

section Steps

theorem fails_materialize (v : Value) :
    Fails (materialize v) s fun f t => f.Meets s [v] ∧ t = s := by
  intro f t h
  cases v with
  | concrete c => cases h
  | symbolic n k owner =>
    by_cases hn : owner = s.number
    · cases (materialize_own hn).symm.trans h
    · cases (materialize_foreign hn).symm.trans h
      exact ⟨⟨n, k, owner, List.mem_cons_self, hn, rfl⟩, rfl⟩

theorem fails_materializeAll (s : Scope) (vs : List Value) :
    Fails (vs.mapM materialize) s fun f t => f.Meets s vs ∧ t = s.pool vs := by
  intro f t h
  rcases materializeAll_outcome s vs with ⟨-, ns, ho⟩ | ⟨n, k, owner, hm, hne, ho⟩
  · cases ho.symm.trans h
  · cases ho.symm.trans h
    exact ⟨⟨n, k, owner, hm, hne, rfl⟩, rfl⟩

theorem fails_node (s : Scope) (op : Op) (domain : Kind) (vs : List Value) (k : Kind) :
    Fails (Plan.node op domain vs k).exec s fun f t => f.Meets s vs ∧ t = s.pool vs :=
  (fails_materializeAll s vs).bind fun _ _ => ⟨_, _, rfl⟩

theorem refuses_exec {p : Plan} (hw : p.Within vs) (hp : p.Plain) :
    Refuses p.exec s vs (s.pool p.taken) := by
  cases p with
  | give v => exact Total.fails fun t => ⟨v, t, rfl⟩
  | refuse f => exact refuses_throw hp
  | node op domain us k => exact (fails_node s op domain us k).refuses hw.1

/-- What records a value under a label has done nothing when it is refused. -/
theorem refuses_labelled (label : String) (v : Value) (record : Labelled → Scope → Scope) :
    Refuses (do let l ← labelled label v; modify (record l)) s [v] s := by
  have hlabelled : Fails (labelled label v) s fun f t => f.Meets s [v] ∧ t = s :=
    (fails_materialize v).bind fun n t => ⟨⟨label, n⟩, t, rfl⟩
  refine Fails.refuses ?_ (List.Subset.refl _)
  exact hlabelled.bind fun l t => ⟨⟨⟩, record l t, rfl⟩

end Steps

section Tables

/-- What is left of a table with a value of another scope among its operands. -/
def tableRemnant (id : Nat) (entries : List Value) (index fallback : Value) (s : Scope) : Scope :=
  match (outcome (entries.mapM materialize) s).1 with
  | .ok nodes =>
    ((s.pool entries).addTable ⟨id, index.kind, fallback.kind, nodes⟩).pool [index, fallback]
  | .error _ => s.pool entries

theorem fails_tabulate (id : Nat) (entries : List Value) (index fallback : Value) :
    Fails (tabulate id entries index fallback) s fun f t =>
      f.Meets s (entries ++ [index, fallback]) ∧ t = tableRemnant id entries index fallback s := by
  have hread : tabulate id entries index fallback =
      (do
        let nodes ← entries.mapM materialize
        modify (Scope.addTable · ⟨id, index.kind, fallback.kind, nodes⟩)
        (Plan.node (.table id) index.kind [index, fallback] fallback.kind).exec) := by
    simp [tabulate, Plan.exec, Scope.addTable]
  intro f t h
  rw [hread] at h
  rcases materializeAll_outcome s entries with ⟨-, ns, ho⟩ | ⟨n, k, owner, hm, hne, ho⟩
  · -- the table is recorded, and the index or the fallback is refused
    rw [outcome_bind_ok ho] at h
    change outcome (Plan.node (.table id) index.kind [index, fallback] fallback.kind).exec
      ((s.pool entries).addTable ⟨id, index.kind, fallback.kind, ns⟩) = (.error f, t) at h
    have hnumber : ((s.pool entries).addTable ⟨id, index.kind, fallback.kind, ns⟩).number =
        s.number := (s.pool_grows entries).number
    obtain ⟨⟨n, k, owner, hm, hne, hf⟩, ht⟩ := fails_node _ (.table id) index.kind _ _ f t h
    rw [hnumber] at hne hf
    refine ⟨⟨n, k, owner, List.mem_append_right _ hm, hne, hf⟩, ?_⟩
    simp only [tableRemnant, ho, ht]
  · rw [outcome_bind, ho] at h
    cases h
    refine ⟨⟨n, k, owner, List.mem_append_left _ hm, hne, rfl⟩, ?_⟩
    simp only [tableRemnant, ho]

end Tables

end Build

namespace Operation

open Build

/-- The operations on values that are a single step. -/
def isSingle : Operation → Bool
  | .primitive _ | .apply .. | .lookup .. => true
  | .materialize _ | .observe .. | .constrain .. | .assert .. | .addOutput _ => true
  | _ => false

/-- The scope that is left when a value of another scope is met. -/
def remnant (w : Workspace) : Operation → Scope
  | .primitive p => w.scope.pool p.plan.taken
  | .apply _ _ args => w.scope.pool args
  | .lookup entries index fallback =>
    tableRemnant w.takeTableId.1 entries index fallback w.scope
  | _ => w.scope

variable {o : Operation} {w w' : Workspace} {f : Fault ValueError}

theorem scopeStep_refuses (ho : o.isSingle = true) :
    Refuses (o.scopeStep w) w.scope o.operands (o.remnant w) := by
  cases o with
  | primitive p => exact (refuses_exec p.plan_within p.plan_regular.plain).map some
  | apply name result args =>
    have hnode := fails_node w.scope (.apply name) (Work.applicationDomain result args) args result
    refine Fails.map some ?_
    unfold applyKnown
    rcases w.signature? name with _ | declared
    · exact hnode.refuses (List.Subset.refl _)
    · simp only
      split_ifs
      · exact hnode.refuses (List.Subset.refl _)
      · refine refuses_throw ?_
        rintro _ ⟨⟩
        rfl
  | lookup entries index fallback =>
    refine Fails.map some (refuses_require ?_)
    split
    · refine refuses_throw ?_
      rintro _ ⟨⟩
      rfl
    · split
      · exact Total.fails fun t => ⟨_, t, rfl⟩
      · exact (fails_tabulate _ _ _ _).refuses (List.Subset.refl _)
  | materialize v =>
    exact Fails.map _ ((fails_materialize v).refuses (List.Subset.refl _))
  | observe label v => exact Fails.map _ (refuses_labelled label v _)
  | constrain label v | assert label v =>
    refine Fails.map _ (refuses_require ?_)
    split_ifs
    · exact Total.fails fun t => ⟨_, t, rfl⟩
    · exact refuses_labelled label v _
  | addOutput v =>
    refine Fails.map _ (Fails.refuses ?_ (List.Subset.refl _))
    exact (fails_materialize v).bind fun n t => ⟨n, _, rfl⟩
  | _ => cases ho

/-- What is refused before a value of another scope is met has not touched the session. -/
theorem sessionAfter_of_plain (hf : f.Plain) {t : Scope}
    (h : outcome (o.scopeStep w) w.scope = (.error f, t)) (ho : o.isSingle = true) :
    o.sessionAfter w = w.session := by
  cases o with
  | apply name result args =>
    rcases hs : w.signature? name with _ | declared
    · have hnode := (fails_node w.scope (.apply name) (Work.applicationDomain result args) args
        result).map some
      rw [scopeStep, hs] at h
      exact ((hnode f t h).1.not_plain hf).elim
    · simp only [sessionAfter, hs]
  | lookup entries index fallback =>
    simp only [sessionAfter]
    split_ifs with hneeds
    · simp only [needsTable, Bool.and_eq_true, Option.isNone_iff_eq_none] at hneeds
      obtain ⟨⟨hk, hfind⟩, hindex⟩ := hneeds
      have htable := (fails_tabulate (s := w.scope) w.takeTableId.1 entries index fallback).map some
      rw [scopeStep, lookupAt, require, if_pos hk, pure_bind, hfind, hindex] at h
      exact ((htable f t h).1.not_plain hf).elim
    · rfl
  | _ => first | rfl | cases ho

/-- A refusal, exactly: it has changed nothing, or it was about a value of another scope. -/
theorem run_refused_cases (ho : o.isSingle = true) (h : outcome o.run w = (.error f, w')) :
    f.Plain ∧ w' = w ∨ f.Meets w.scope o.operands ∧ w' = ⟨o.sessionAfter w, o.remnant w⟩ := by
  rw [outcome_run] at h
  obtain ⟨hf, rfl⟩ := Prod.mk.inj h
  have hstep : outcome (o.scopeStep w) w.scope =
      (.error f, (outcome (o.scopeStep w) w.scope).2) := Prod.ext hf rfl
  rcases scopeStep_refuses ho f _ hstep with ⟨hplain, ht⟩ | ⟨hmeets, ht⟩
  · exact .inl ⟨hplain, congrArg₂ Workspace.mk (sessionAfter_of_plain hplain hstep ho) ht⟩
  · exact .inr ⟨hmeets, congrArg _ ht⟩

/-- What is left differs from the scope in constants, and for a look-up in the table, at most. -/
theorem remnant_pools (o : Operation) (w : Workspace) :
    ∃ ts, Scope.Pools { w.scope with tables := w.scope.tables ++ ts } (o.remnant w) ∧
      ((∀ entries index fallback, o ≠ .lookup entries index fallback) → ts = []) := by
  have hsame : { w.scope with tables := w.scope.tables ++ [] } = w.scope := by
    rw [List.append_nil]
  cases o with
  | primitive p =>
    refine ⟨[], ?_, fun _ => rfl⟩
    rw [hsame]
    exact w.scope.pool_pools _
  | apply name result args =>
    refine ⟨[], ?_, fun _ => rfl⟩
    rw [hsame]
    exact w.scope.pool_pools _
  | lookup entries index fallback =>
    rcases ho : (outcome (entries.mapM Build.materialize) w.scope).1 with e | ns
    · refine ⟨[], ?_, fun _ => rfl⟩
      rw [hsame, remnant, tableRemnant, ho]
      exact w.scope.pool_pools _
    · refine ⟨[⟨w.takeTableId.1, index.kind, fallback.kind, ns⟩], ?_,
        fun h => (h entries index fallback rfl).elim⟩
      rw [remnant, tableRemnant, ho]
      refine Scope.Pools.trans ?_ (Scope.pool_pools _ _)
      have hpools := w.scope.pool_pools entries
      unfold Scope.Pools at hpools ⊢
      rw [hpools]
      rfl
  | _ =>
    refine ⟨[], ?_, fun _ => rfl⟩
    rw [hsame]
    exact Scope.Pools.refl _

theorem remnant_eq_self (hl : ∀ entries index fallback, o ≠ .lookup entries index fallback)
    (h : ∀ c, .concrete c ∈ o.operands → (w.scope.constIds.lookup c).isSome = true) :
    o.remnant w = w.scope := by
  cases o with
  | primitive p =>
    refine Scope.pool_eq_self fun c hc => h c ?_
    have hw := p.plan_within
    cases hp : p.plan with
    | node op domain us k =>
      rw [hp] at hw hc
      exact hw.1 hc
    | _ =>
      rw [hp] at hc
      cases hc
  | apply name result args => exact Scope.pool_eq_self h
  | lookup entries index fallback => exact (hl entries index fallback rfl).elim
  | _ => rfl

/-- A loop that fails has made its turns up to the one that fails. -/
theorem foldlM_error {α β : Type} {g : α → β → Build α} {vs : List β} {a : α} {s t : Scope}
    (h : outcome (vs.foldlM g a) s = (.error f, t)) :
    ∃ us v rest b u, vs = us ++ v :: rest ∧ outcome (us.foldlM g a) s = (.ok b, u) ∧
      outcome (g b v) u = (.error f, t) := by
  induction vs generalizing a s with
  | nil => cases h
  | cons v vs ih =>
    rw [List.foldlM_cons, outcome_bind] at h
    rcases hv : outcome (g a v) s with ⟨e | b, u⟩ <;> rw [hv] at h
    · cases h
      exact ⟨[], v, vs, a, s, rfl, rfl, hv⟩
    · obtain ⟨us, x, rest, c, r, rfl, hus, hx⟩ := ih h
      refine ⟨v :: us, x, rest, c, r, rfl, ?_, hx⟩
      rw [List.foldlM_cons, outcome_bind_ok hv, hus]

/-- A conjunction of many values is refused where one of its steps is. -/
theorem run_all_refused {vs : List Value} (h : outcome (all vs).run w = (.error f, w')) :
    ∃ us v rest acc u, vs = us ++ v :: rest ∧ outcome (all us).run w = (.ok (some acc), u) ∧
      outcome (primitive (.and acc v)).run u = (.error f, w') := by
  rw [outcome_run, scopeStep, outcome_map] at h
  rcases hall : outcome (Build.all vs) w.scope with ⟨e | b, t⟩ <;> rw [hall] at h
  · cases h
    obtain ⟨us, v, rest, acc, u, rfl, hus, hv⟩ := foldlM_error hall
    refine ⟨us, v, rest, acc, ⟨w.session, u⟩, rfl, ?_, ?_⟩
    · rw [outcome_run, scopeStep, outcome_map, Build.all, hus]
      rfl
    · rw [outcome_run, scopeStep, outcome_map, Primitive.plan, Plan.exec_and, hv]
      rfl
  · cases h

/-- A refusal that is not about a value of another scope leaves everything as it was. One that is
names the value, and leaves the scope's `remnant` and the session after the operation: constants for
the literals, of a look-up the table, and the signature of a function that was not known. It leaves
nothing if the literals are constants already and neither a table nor a signature is new. A
conjunction of many values leaves its steps up to the one that is refused, and that one's. -/
theorem run_refused (w w' : Workspace) (e : ValueError) :
    (∀ o : Operation, o.isSingle = true → outcome o.run w = (.error (.error e), w') →
      (e.isForeign = false → w' = w) ∧
      (e.isForeign = true →
        (∃ n k owner, .symbolic n k owner ∈ o.operands ∧ owner ≠ w.scope.number ∧
          e = .foreignValue n owner w.scope.number) ∧
        w' = ⟨o.sessionAfter w, o.remnant w⟩ ∧
        (∃ ts, Scope.Pools { w.scope with tables := w.scope.tables ++ ts } w'.scope ∧
          ((∀ entries index fallback, o ≠ .lookup entries index fallback) → ts = [])) ∧
        ((∀ c, .concrete c ∈ o.operands → (w.scope.constIds.lookup c).isSome = true) →
          (∀ entries index fallback, o ≠ .lookup entries index fallback) →
          o.sessionAfter w = w.session → w' = w))) ∧
    ∀ vs : List Value, outcome (all vs).run w = (.error (.error e), w') →
      ∃ us v rest acc u, vs = us ++ v :: rest ∧ outcome (all us).run w = (.ok (some acc), u) ∧
        outcome (primitive (.and acc v)).run u = (.error (.error e), w') := by
  refine ⟨fun o ho h => ?_, fun vs h => run_all_refused h⟩
  rcases run_refused_cases ho h with ⟨hplain, rfl⟩ | ⟨⟨n, k, owner, hm, hne, he⟩, rfl⟩
  · refine ⟨fun _ => rfl, fun hforeign => ?_⟩
    cases hforeign.symm.trans (hplain e rfl)
  · cases he
    refine ⟨Bool.noConfusion, fun _ => ⟨⟨n, k, owner, hm, hne, rfl⟩, rfl, remnant_pools o w,
      fun hlits hl hsession => ?_⟩⟩
    exact congrArg₂ Workspace.mk hsession (remnant_eq_self hl hlits)

section Sample

/-- The session of a scope with one input, with a fork of it at hand. -/
def inFork : Workspace := World.forkedAfterInput.workspace World.forkedAfterInput.scopes[1]

/-- An application, in the fork, to the input of the other scope. -/
def foreignApplication : Operation := .apply "f" .int [.symbolic 2 (.unsigned 8) 0]

/-- The application is refused for its argument, and the function is declared. -/
theorem run_refused_foreignApplication :
    outcome foreignApplication.run inFork =
      (.error (.error (.foreignValue 2 0 1)),
        ⟨foreignApplication.sessionAfter inFork, foreignApplication.remnant inFork⟩) := by
  have hrun : outcome foreignApplication.run inFork =
      (.error (.error (.foreignValue 2 0 1)), (outcome foreignApplication.run inFork).2) := rfl
  obtain ⟨-, hleft, -⟩ := ((run_refused _ _ _).1 _ rfl hrun).2 rfl
  rw [hrun, hleft]

/-- A refused application is remembered: the next one, of another signature, is refused for that. -/
theorem refused_application_declares :
    World.forkedAfterInput.Reachable ∧
      World.forkedAfterInput.Supplies (.call 1 foreignApplication) ∧
      ∃ w', outcome foreignApplication.run inFork = (.error (.error (.foreignValue 2 0 1)), w') ∧
        inFork.uninterpreted.find? "f" = none ∧
        w'.uninterpreted.find? "f" = some ⟨[.unsigned 8], .int⟩ ∧
        (outcome (Operation.apply "f" .bool []).run w').1 =
          .error (.error (.signatureMismatch "f" ⟨[.unsigned 8], .int⟩ ⟨[], .bool⟩)) := by
  refine ⟨World.forkedAfterInput_reachable, ?_, _, rfl, rfl, rfl, rfl⟩
  have hi : World.forkedAfterInput.issued = [.symbolic 2 (.unsigned 8) 0] := by decide
  simp [World.Supplies, foreignApplication, operands, Value.isConcrete, hi]

end Sample

end Operation

end SmtLowering
