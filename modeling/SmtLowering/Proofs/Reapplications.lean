import Mathlib.Data.List.Induction
import SmtLowering.Proofs.Enactment

/-!
# Applications found again

A scope finds an application again by its function, domain and operands, and not by its result kind.
So the value of an application is of the kind that was asked for, and its node of that of the
application that made it (`World.Made`). The two differ where a name has lost its signature in
between and has taken another one, unless there are no operands: the domain is the result kind then
(`World.application_kinds`).
-/

namespace SmtLowering

open Work (applicationDomain)

namespace Scope

variable {s : Scope} {e e' : Expr} {k : Kind} {n : NodeId}

theorem exprIds_constant (s : Scope) (c : Literal) : (s.constant c).2.exprIds = s.exprIds := by
  rcases h : s.constIds.lookup c with _ | n
  · rw [constant_of_lookup_none h]
  · rw [constant_of_lookup h]

/-- An expression is known after it was interned, at a new node of the kind that was asked for if it
was not known before. -/
theorem lookup_intern (s : Scope) (e : Expr) (k : Kind) :
    ∃ n, (s.intern e k).1 = .symbolic n k s.number ∧
      (s.intern e k).2.exprIds.lookup e = some n ∧
      (s.exprIds.lookup e = some n ∨
        n = s.nodeCount ∧ (s.intern e k).2.kindOf? n = some k) := by
  rcases h : s.exprIds.lookup e with _ | n
  · rw [intern_of_lookup_none h]
    exact ⟨s.nodeCount, rfl, List.lookup_cons_self, .inr ⟨rfl, s.kindOf?_nodeCount k⟩⟩
  · rw [intern_of_lookup h]
    exact ⟨n, rfl, h, .inl rfl⟩

theorem lookup_of_intern (hne : e' ≠ e) (h : (s.intern e k).2.exprIds.lookup e' = some n) :
    s.exprIds.lookup e' = some n := by
  rcases he : s.exprIds.lookup e with _ | m
  · rw [intern_of_lookup_none he] at h
    exact ((lookup_cons_of_lookup_none he _ _ _).1 h).resolve_left fun heq => hne heq.1
  · rwa [intern_of_lookup he] at h

end Scope

/-- The expression applies the function to nodes, one for each operand; without operands its domain
is the result kind. -/
structure Expr.AppliesTo (e : Expr) (f : String) (result : Kind) (args : List Value) : Prop where
  op : e.op = .apply f
  args : e.args = [] ↔ args = []
  domain : e.args = [] → e.domain = result

namespace Build

variable {s : Scope} {es : List (Expr × NodeId)}

/-- Operands become constants at most. -/
theorem keeps_exprIds_materialize (v : Value) (hs : s.exprIds = es) :
    Keeps (·.exprIds = es) (materialize v) s fun _ _ => True := by
  cases v with
  | concrete c => exact ⟨s.constant_grows c, (s.exprIds_constant c).trans hs, fun _ _ => trivial⟩
  | symbolic m k number =>
    refine (keeps_get hs).bind fun _ t _ ht _ => ?_
    split_ifs
    · exact keeps_pure ht trivial
    · exact keeps_throw ht _

theorem keeps_exprIds_materializeAll (vs : List Value) (hs : s.exprIds = es) :
    Keeps (·.exprIds = es) (vs.mapM materialize) s fun ns _ => ns.length = vs.length := by
  induction vs generalizing s with
  | nil => exact keeps_pure hs rfl
  | cons v vs ih =>
    rw [List.mapM_cons]
    refine (keeps_exprIds_materialize v hs).bind fun n t _ ht _ =>
      (ih ht).bind fun ns u _ hu hlen => keeps_pure hu ?_
    rw [List.length_cons, List.length_cons, hlen]

/-- The step interns an application of the function, or fails and has interned nothing. -/
def MakesApplication (f : String) (result : Kind) (args : List Value) (m : Build Value)
    (s : Scope) : Prop :=
  (∃ t e, e.AppliesTo f result args ∧ s.Grows t ∧ t.exprIds = s.exprIds ∧
    outcome m s = (.ok (t.intern e result).1, (t.intern e result).2)) ∨
  ∃ fault t, t.exprIds = s.exprIds ∧ outcome m s = (.error fault, t)

theorem makesApplication_node (f : String) (result : Kind) (args : List Value) (s : Scope) :
    MakesApplication f result args
      (Plan.node (.apply f) (applicationDomain result args) args result).exec s := by
  obtain ⟨hgrows, hids, hlen⟩ := keeps_exprIds_materializeAll (s := s) args rfl
  rcases hns : outcome (args.mapM materialize) s with ⟨fault | ns, t⟩ <;>
    rw [hns] at hgrows hids hlen
  · exact .inr ⟨fault, t, hids, by rw [Plan.exec, outcome_bind, hns]⟩
  · have hempty : ns = [] ↔ args = [] := by
      rw [← List.length_eq_zero_iff, hlen ns rfl, List.length_eq_zero_iff]
    refine .inl ⟨t, ⟨.apply f, applicationDomain result args, ns⟩, ⟨rfl, hempty, fun h => ?_⟩,
      hgrows, hids, by rw [Plan.exec, outcome_bind_ok hns]; rfl⟩
    rw [hempty.1 h]
    rfl

theorem makesApplication_applyKnown (known : Option Signature) (f : String) (result : Kind)
    (args : List Value) (s : Scope) :
    MakesApplication f result args (applyKnown known f result args) s := by
  unfold applyKnown
  cases known with
  | none => exact makesApplication_node f result args s
  | some declared =>
    simp only
    split_ifs
    · exact makesApplication_node f result args s
    · exact .inr ⟨_, s, rfl, rfl⟩

end Build

namespace Operation

variable {e : Expr} {f : String} {n : NodeId} {result : Kind} {args : List Value}

/-- In `w` the application gives a new node, which is of the result kind. -/
structure Issues (w u : Workspace) (f : String) (result : Kind) (args : List Value) (n : NodeId) :
    Prop where
  outcome : outcome (Work.apply f result args) w = (.ok (.symbolic n result w.scope.number), u)
  unknown : w.scope.kindOf? n = none
  kind : u.scope.kindOf? n = some result

/-- What is known of applications of `f` survives whatever is not an application of it. -/
theorem stable_applications {o : Operation} {w : Workspace} (es : List (Expr × NodeId))
    (ho : ∀ f result args, o ≠ .apply f result args) :
    o.Stable w fun s => ∀ e f n, e.op = .apply f → s.exprIds.lookup e = some n →
      es.lookup e = some n where
  constant {s} c hs e f n he h := hs e f n he (s.exprIds_constant c ▸ h)
  intern {s} e' k he' hs e f n he h := by
    by_cases heq : e = e'
    · rw [← heq, he] at he'
      obtain ⟨result, args, hop⟩ := he'
      exact absurd hop (ho f result args)
    · exact hs e f n he (Scope.lookup_of_intern heq h)
  addInput _ _ _ hs := hs
  table _ _ _ hs := hs
  artifacts _ _ _ _ _ _ hs := hs

/-- An application that succeeds gives a node that is known for its expression, and was known before
unless it is new. -/
theorem issues_of_apply {w u : Workspace} {v : Value}
    (h : outcome (Work.apply f result args) w = (.ok v, u)) :
    ∃ e n, e.AppliesTo f result args ∧ v = .symbolic n result w.scope.number ∧
      u.scope.exprIds.lookup e = some n ∧
      (w.scope.exprIds.lookup e = some n ∨ Issues w u f result args n) ∧
      ∀ e' m, u.scope.exprIds.lookup e' = some m → e' ≠ e → w.scope.exprIds.lookup e' = some m := by
  obtain ⟨hrun, -⟩ := Work.applyKnown_of_apply h
  rcases Build.makesApplication_applyKnown (w.signature? f) f result args w.scope with
    ⟨t, e, ha, hgrows, hids, hmade⟩ | ⟨fault, t, -, hfail⟩
  · obtain ⟨hv, ht⟩ := Prod.mk.inj (hmade.symm.trans hrun)
    obtain ⟨n, hn, hlookup, hcases⟩ := t.lookup_intern e result
    rw [ht] at hlookup hcases
    obtain rfl : v = .symbolic n result w.scope.number := by
      rw [← Except.ok.inj hv, hn, hgrows.number]
    refine ⟨e, n, ha, rfl, hlookup, ?_, fun e' m h' hne => ?_⟩
    · rcases hcases with hknown | ⟨rfl, hkind⟩
      · exact .inl (hids ▸ hknown)
      · exact .inr ⟨h, List.getElem?_eq_none hgrows.nodeCount_le, hkind⟩
    · rw [← ht] at h'
      rw [← hids]
      exact Scope.lookup_of_intern hne h'
  · cases hfail.symm.trans hrun

theorem exprIds_of_apply_error {w u : Workspace} {fault : Fault ValueError}
    (h : outcome (Work.apply f result args) w = (.error fault, u)) :
    u.scope.exprIds = w.scope.exprIds := by
  rw [outcome_apply] at h
  obtain ⟨herr, rfl⟩ := Prod.mk.inj h
  rcases Build.makesApplication_applyKnown (w.signature? f) f result args w.scope with
    ⟨t, e, -, -, -, hmade⟩ | ⟨fault', t, hids, hfail⟩
  · rw [hmade] at herr
    cases herr
  · rw [hfail]
    exact hids

/-- Where an application is known after an operation it was known before, or the operation is the
application that gave its node. -/
theorem application_cases (o : Operation) (w : Workspace) (he : e.op = .apply f)
    (h : (outcome o.run w).2.scope.exprIds.lookup e = some n) :
    w.scope.exprIds.lookup e = some n ∨
      ∃ result args, o = .apply f result args ∧ e.AppliesTo f result args ∧
        Issues w (outcome o.run w).2 f result args n := by
  by_cases ho : ∃ name result args, o = .apply name result args
  · obtain ⟨name, result, args, rfl⟩ := ho
    have hrun : (outcome (apply name result args).run w).2 =
        (outcome (Work.apply name result args) w).2 := by
      rw [run, bind_pure_comp, outcome_map]
    rw [hrun] at h ⊢
    rcases hu : outcome (Work.apply name result args) w with ⟨fault | v, u⟩ <;> rw [hu] at h
    · exact .inl (exprIds_of_apply_error hu ▸ h)
    · obtain ⟨e', m, ha, -, hm, hcases, hother⟩ := issues_of_apply hu
      by_cases heq : e = e'
      · subst heq
        obtain rfl : f = name := Op.apply.inj (he.symm.trans ha.op)
        obtain rfl : n = m := Option.some.inj (h.symm.trans hm)
        exact hcases.imp_right fun hi => ⟨result, args, rfl, ha, hi⟩
      · exact .inl (hother e n h heq)
  · simp only [not_exists] at ho
    rw [outcome_run] at h
    have hkept := (stable_applications (w := w) w.scope.exprIds ho).scopeStep (s := w.scope)
      fun _ _ _ _ hn => hn
    exact .inl (hkept.2.1 e f n he h)

end Operation

namespace World

open Operation (Issues)

/-- After the deeds, `n` is a node of the `i`th scope that an application of `f` at the result kind
`k` has made, there or in the scope that the `i`th one is derived from. -/
inductive Made (f : String) (n : NodeId) (k : Kind) : List Deed → Nat → Prop
  | apply {ds i s args u} : (empty.deeds ds).scopes[i]? = some s →
    Issues ((empty.deeds ds).workspace s) u f k args n →
    u.signature? f = some ⟨args.map Value.kind, k⟩ →
    Made f n k (ds ++ [.act (.operate i (.apply f k args))]) i
  | later {ds i} (d : Deed) : Made f n k ds i → Made f n k (ds ++ [d]) i
  | derived {ds i level policy} : policy .nodes ≠ .fresh → Made f n k ds i →
    Made f n k (ds ++ [.derive i level policy]) (empty.deeds ds).scopes.length

/-- The applications that the scope, the `i`th one after the deeds, knows are of the kinds that they
were made at. -/
def Accounts (ds : List Deed) (i : Nat) (s : Scope) : Prop :=
  ∀ (e : Expr) (f : String) (n : NodeId), e.op = .apply f → s.exprIds.lookup e = some n →
    ∃ k, s.kindOf? n = some k ∧ (e.args = [] → e.domain = k) ∧ Made f n k ds i

def AllAccount (ds : List Deed) : Prop :=
  ∀ (i : Nat) (s : Scope), (empty.deeds ds).scopes[i]? = some s → Accounts ds i s

section Accounts

variable {ds : List Deed} {i : Nat} {s : Scope} {d : Deed}

theorem Accounts.later (h : Accounts ds i s) (d : Deed) : Accounts (ds ++ [d]) i s := by
  intro e f n he hn
  obtain ⟨k, hk, hdomain, hmade⟩ := h e f n he hn
  exact ⟨k, hk, hdomain, hmade.later d⟩

/-- After an operation the scope knows what it knew, and perhaps the application that it was. -/
theorem Accounts.run (h : Accounts ds i s) (hs : (empty.deeds ds).scopes[i]? = some s)
    (o : Operation) :
    Accounts (ds ++ [.act (.operate i o)]) i
      (outcome o.run ((empty.deeds ds).workspace s)).2.scope := by
  intro e f n he hn
  rcases o.application_cases _ he hn with hknown | ⟨k, args, rfl, ha, hi⟩
  · obtain ⟨k, hk, hdomain, hmade⟩ := h e f n he hknown
    rw [Operation.outcome_run]
    exact ⟨k, (o.scopeStep_grows _).kindOf?_of_some hk, hdomain, hmade.later _⟩
  · have hrange := deeds_inRange empty_inRange ds s (List.mem_of_getElem? hs)
    have hsig := Work.signature?_of_apply ⟨hrange.uninterpreted, hrange.userFunctions⟩ hi.outcome
    exact ⟨k, hi.kind, ha.domain, .apply hs hi hsig⟩

theorem accounts_blank (number level : Nat) (config : Config) (branches : BranchIds) :
    Accounts ds i (.blank number level config branches) := fun _ _ _ _ hn => nomatch hn

/-- A derived scope knows what the other one knows if it has its nodes, and else nothing. -/
theorem Accounts.derive (h : Accounts ds i s) (session : Session) (level : Nat)
    (policy : Scope.Field → Scope.Policy) :
    Accounts (ds ++ [.derive i level policy]) (empty.deeds ds).scopes.length
      (session.derive s level policy).1 := by
  intro e f n he hn
  by_cases hfresh : policy .nodes = .fresh
  · simp only [Session.derive, hfresh, Scope.Policy.pick] at hn
    cases hn
  · have hpick {α : Type} (a b : α) : (policy .nodes).pick a b = a := by
      cases hp : policy .nodes with
      | fresh => exact absurd hp hfresh
      | share | snapshot => rfl
    simp only [Session.derive, hpick] at hn
    obtain ⟨k, hk, hdomain, hmade⟩ := h e f n he hn
    refine ⟨k, ?_, hdomain, .derived hfresh hmade⟩
    simpa only [Session.derive, hpick, Scope.kindOf?] using hk

theorem deeds_snoc (ds : List Deed) (d : Deed) :
    empty.deeds (ds ++ [d]) = (empty.deeds ds).deed d := deeds_append _ _ _

theorem AllAccount.of_same (h : AllAccount ds)
    (hd : ((empty.deeds ds).deed d).scopes = (empty.deeds ds).scopes) : AllAccount (ds ++ [d]) := by
  intro i s hs
  rw [deeds_snoc, hd] at hs
  exact (h i s hs).later d

theorem AllAccount.of_opened (h : AllAccount ds) {session : Session} {child : Scope}
    (hd : (empty.deeds ds).deed d =
      ⟨session, (empty.deeds ds).scopes ++ [child], (empty.deeds ds).issued⟩)
    (hc : Accounts (ds ++ [d]) (empty.deeds ds).scopes.length child) : AllAccount (ds ++ [d]) := by
  intro i s hs
  rw [deeds_snoc, hd] at hs
  rcases Scope.getElem?_snoc hs with hs | ⟨rfl, rfl⟩
  · exact (h i s hs).later d
  · exact hc

theorem AllAccount.operate (h : AllAccount ds) (i : Nat) (o : Operation) :
    AllAccount (ds ++ [.act (.operate i o)]) := by
  rcases hi : (empty.deeds ds).scopes[i]? with _ | r
  · exact h.of_same (congrArg World.scopes (next_call_none _ o hi))
  intro j s hs
  rw [deeds_snoc, (deed_operate hi o).2] at hs
  by_cases hij : i = j
  · subst hij
    rw [List.getElem?_set_self (List.getElem?_eq_some_iff.1 hi).1] at hs
    obtain rfl := Option.some.inj hs
    exact (h i r hi).run hi o
  · rw [List.getElem?_set_ne hij] at hs
    exact (h j s hs).later _

theorem AllAccount.deed (h : AllAccount ds) (d : Deed) : AllAccount (ds ++ [d]) := by
  cases d with
  | act a =>
    cases a with
    | operate i o => exact h.operate i o
    | fork i purpose =>
      rcases hi : (empty.deeds ds).scopes[i]? with _ | r
      · exact h.of_same (by simp only [World.deed, act, next, hi])
      · rcases hf : (empty.deeds ds).session.fork r purpose with e | ⟨child, session⟩
        · exact h.of_same (by simp only [World.deed, act, next, hi, hf])
        · refine h.of_opened (deed_fork hi hf) ?_
          rw [Session.fork_blank hf]
          exact accounts_blank _ _ _ _
    | lower i t body =>
      refine h.of_same ?_
      simp only [World.deed, act]
      rcases (empty.deeds ds).scopes[i]? with _ | r <;> rfl
  | start config => exact h.of_opened rfl (accounts_blank _ _ _ _)
  | derive i level policy =>
    rcases hi : (empty.deeds ds).scopes[i]? with _ | r
    · exact h.of_same (by simp only [World.deed, hi])
    · exact h.of_opened (by simp only [World.deed, hi]; rfl) ((h i r hi).derive _ level policy)

theorem allAccount (ds : List Deed) : AllAccount ds := by
  induction ds using List.reverseRecOn with
  | nil => exact fun _ _ hs => nomatch hs
  | append_singleton ds d ih => exact ih.deed d

end Accounts

/-- Whatever was done in a session and whatever script is run in one of its scopes then: an
application is of the kind that it asks for, and so is its node, unless there are operands and an
earlier application of the name has made the node. Then the node is of the kind that it was made at,
while the name has the other signature now. -/
theorem application_kinds {before : List Deed} {i : Nat} {s : Scope}
    (hs : (empty.deeds before).scopes[i]? = some s) {c : Script} {x : Script.State}
    (hx : Script.Steps ⟨c, [], (empty.deeds before).workspace s, .empty⟩ x) {f : String}
    {result : Kind} {args : List Value} {u : Workspace} (hu : x.Performs (.apply f result args) u)
    {v : Value} {t : Workspace} (h : outcome (Work.apply f result args) u = (.ok v, t)) :
    ∃ n k, v = .symbolic n result u.scope.number ∧ t.scope.kindOf? n = some k ∧
      t.signature? f = some ⟨args.map Value.kind, result⟩ ∧
      (k = result ∨ args ≠ [] ∧ ∃ meanwhile j,
        (empty.deeds (before ++ meanwhile)).scopes[j]? = some u.scope ∧
        (empty.deeds (before ++ meanwhile)).workspace u.scope = u ∧
        Made f n k (before ++ meanwhile) j) := by
  have htrack : Script.Tracks (empty.deeds before) i [] [] ((empty.deeds before).workspace s)
      .empty :=
    ⟨rfl, hs, rfl, (fun _ _ hk => nomatch hk), List.nodup_singleton i, fun _ hp => nomatch hp⟩
  obtain ⟨meanwhile, i', forks, ht⟩ := hx.enacted htrack
  rw [← deeds_append] at ht
  obtain ⟨j, hj, hw⟩ := ht.performs hu
  have hrange := deeds_inRange empty_inRange (before ++ meanwhile) u.scope (List.mem_of_getElem? hj)
  rw [hw] at hrange
  have hsig := Work.signature?_of_apply ⟨hrange.uninterpreted, hrange.userFunctions⟩ h
  obtain ⟨e, n, ha, rfl, -, hknown | hi, -⟩ := Operation.issues_of_apply h
  · obtain ⟨k, hk, hdomain, hmade⟩ := allAccount _ j u.scope hj e f n ha.op hknown
    refine ⟨n, k, rfl, (Work.grows_of_apply h).kindOf?_of_some hk, hsig, ?_⟩
    by_cases hargs : args = []
    · have he := ha.args.2 hargs
      exact .inl ((hdomain he).symm.trans (ha.domain he))
    · exact .inr ⟨hargs, meanwhile, j, hj, hw, hmade⟩
  · exact ⟨n, result, rfl, hi.kind, hsig, .inl rfl⟩

/-- A function is applied to an input at the result kind `int`, and its name is forgotten. -/
def forgotten : List Deed :=
  [.start {}, .act (.operate 0 (.input .universal "x" .int)),
    .act (.operate 0 (.apply "f" .int [.symbolic 2 .int 0])),
    .act (.operate 0 (.forgetUninterpreted "f"))]

/-- The function is applied to the input again, at another result kind. -/
def applyAgain : Script :=
  .operate (.apply "f" .bool [.symbolic 2 .int 0]) fun _ => .result (.symbolic 2 .int 0)

theorem apply_forgotten :
    ∃ s t, (empty.deeds forgotten).scopes[0]? = some s ∧
      outcome (Work.apply "f" .bool [.symbolic 2 .int 0]) ((empty.deeds forgotten).workspace s) =
        (.ok (.symbolic 3 .bool 0), t) ∧
      t.scope.kindOf? 3 = some .int := by
  obtain ⟨s, hs⟩ : ∃ s, (empty.deeds forgotten).scopes[0]? = some s := ⟨_, rfl⟩
  obtain ⟨t, ht⟩ : ∃ t, outcome (Work.apply "f" .bool [.symbolic 2 .int 0])
      ((empty.deeds forgotten).workspace s) = (.ok (.symbolic 3 .bool 0), t) := by
    cases hs
    exact ⟨_, rfl⟩
  refine ⟨s, t, hs, ht, ?_⟩
  cases hs
  cases ht
  rfl

theorem application_kinds_forgotten :
    ∃ s t, (empty.deeds forgotten).scopes[0]? = some s ∧
      outcome (Work.apply "f" .bool [.symbolic 2 .int 0]) ((empty.deeds forgotten).workspace s) =
        (.ok (.symbolic 3 .bool 0), t) ∧
      ∃ meanwhile j, Made "f" 3 .int (forgotten ++ meanwhile) j := by
  obtain ⟨s, t, hs, ht, hkind⟩ := apply_forgotten
  obtain ⟨n, k, hv, hk, -, hmade⟩ := application_kinds hs (c := applyAgain) .refl ⟨rfl, rfl⟩ ht
  obtain ⟨rfl, -, -⟩ := Value.symbolic.inj hv
  obtain rfl := Option.some.inj (hk.symm.trans hkind)
  obtain hsame | ⟨-, meanwhile, j, -, -, hmade⟩ := hmade
  · cases hsame
  · exact ⟨s, t, hs, ht, meanwhile, j, hmade⟩

/-- A function is applied in a fork while a definition of its name is under way. The definition
fails, and the function is applied to the same input again, at another result kind. -/
def applyAfterFailure : Script :=
  .fork .here .lambda fun _ =>
  .visit 0 (.input .universal "x" .int) fun _ =>
  .lower .here (.function "f" .bool)
    (.visit 0 (.apply "f" .int [.symbolic 2 .int 1]) fun _ => .abort (.user "no result")) fun _ =>
  .visit 0 (.apply "f" .bool [.symbolic 2 .int 1]) fun
    | .ok (some v) => .result v
    | _ => .abort (.user "no application")

/-- The value of an application need not be of the kind of its node, neither after its name was
forgotten nor after a definition of the name has failed. -/
theorem application_kind_lost :
    (∃ s t, (empty.deeds forgotten).scopes[0]? = some s ∧
      outcome (Work.apply "f" .bool [.symbolic 2 .int 0]) ((empty.deeds forgotten).workspace s) =
        (.ok (.symbolic 3 .bool 0), t) ∧
      t.scope.kindOf? 3 = some .int) ∧
    (applyAfterFailure.run [] (.new {}) .empty).1.1.toOption = some (.symbolic 3 .bool 1) ∧
    ∃ s ∈ (applyAfterFailure.run [] (.new {}) .empty).2.held,
      s.number = 1 ∧ s.kindOf? 3 = some .int :=
  ⟨apply_forgotten, by decide +kernel⟩

end World

end SmtLowering
