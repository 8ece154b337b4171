import SmtLowering.Proofs.Composites
import SmtLowering.Proofs.Isolation
import SmtLowering.Proofs.TypedRuns

/-!
# Repeated calls

A scope finds again what it has made: a step that is put together of operations on values gives the
same in every later scope, and adds nothing to it (`Build.Composite.repeats`). What a scope holds
lasts whatever is done in its session (`World.deed_grows`), so a call that has succeeded is free
from then on (`World.repeated_call`), if the signatures that the scope sees last as well.
-/

namespace SmtLowering

namespace Build

variable {α β : Type}

/-- Where the step has succeeded, it gives the same in every later scope, which it leaves as it
is. -/
def Repeats (m : Build α) : Prop :=
  ∀ (s t u : Scope) (a : α), outcome m s = (.ok a, t) → t.Grows u → outcome m u = (.ok a, u)

theorem Repeats.pure (a : α) : Repeats (pure a : Build α) := by
  rintro s t u b h -
  cases h
  rfl

/-- The second part adds to what the first part has made. -/
theorem Repeats.bind {m : Build α} {f : α → Build β} (hm : Repeats m) (hf : ∀ a, Repeats (f a))
    (hgrows : ∀ (a : α) (t : Scope), t.Grows (outcome (f a) t).2) : Repeats (m >>= f) := by
  intro s t u b h hu
  obtain ⟨a, t', ha, hb⟩ := outcome_bind_eq_ok h
  have ht := hgrows a t'
  rw [hb] at ht
  rw [outcome_bind_ok (hm s t' u a ha (ht.trans hu)), hf a t' t u b hb hu]

theorem constant_of_grows {s u : Scope} {c : Literal} (hu : (s.constant c).2.Grows u) :
    u.constant c = ((s.constant c).1, u) := by
  refine Scope.constant_of_lookup (hu.constIds c _ ?_)
  rcases h : s.constIds.lookup c with _ | n
  · rw [Scope.constant_of_lookup_none h]
    exact List.lookup_cons_self
  · rw [Scope.constant_of_lookup h]
    exact h

theorem intern_of_grows {s u : Scope} {e : Expr} {k : Kind} (hu : (s.intern e k).2.Grows u) :
    u.intern e k = ((s.intern e k).1, u) := by
  have hnumber : u.number = s.number := hu.number.trans (s.intern_grows e k).number
  rcases h : s.exprIds.lookup e with _ | n
  · rw [Scope.intern_of_lookup_none h] at hu ⊢
    rw [Scope.intern_of_lookup (hu.exprIds e s.nodeCount List.lookup_cons_self), hnumber]
  · rw [Scope.intern_of_lookup h] at hu ⊢
    rw [Scope.intern_of_lookup (hu.exprIds e n h), hnumber]

theorem repeats_materialize (v : Value) : Repeats (materialize v) := by
  intro s t u n h hu
  cases v with
  | concrete c =>
    have hs : outcome (materialize (.concrete c)) s =
        (.ok (s.constant c).1, (s.constant c).2) := rfl
    obtain ⟨hn, rfl⟩ := Prod.mk.inj (hs.symm.trans h)
    rw [← hn]
    exact congrArg (fun p : NodeId × Scope => (Except.ok p.1, p.2)) (constant_of_grows hu)
  | symbolic m k number =>
    rw [materialize, outcome_bind_ok (outcome_get s)] at h
    rw [materialize, outcome_bind_ok (outcome_get u)]
    split_ifs at h with hnumber
    · cases h
      rw [if_pos (hnumber.trans hu.number.symm)]
      rfl
    · cases h

theorem repeats_intern (e : Expr) (k : Kind) : Repeats (intern e k) := by
  intro s t u v h hu
  have hs : outcome (intern e k) s = (.ok (s.intern e k).1, (s.intern e k).2) := rfl
  obtain ⟨hv, rfl⟩ := Prod.mk.inj (hs.symm.trans h)
  rw [← hv]
  exact congrArg (fun p : Value × Scope => (Except.ok p.1, p.2)) (intern_of_grows hu)

theorem nodeRelation_grows : Scope.NodeRelation Scope.Grows where
  refl := .refl
  trans := .trans
  constant := Scope.constant_grows
  intern := Scope.intern_grows

theorem repeats_materializeAll (vs : List Value) : Repeats (vs.mapM materialize) := by
  induction vs with
  | nil => exact .pure []
  | cons v vs ih =>
    rw [List.mapM_cons]
    refine (repeats_materialize v).bind (fun n => ih.bind (fun ns => .pure _) ?_) ?_
    · exact fun ns t => .refl t
    · intro n t
      refine Composite.relates_bind nodeRelation_grows ?_ fun ns u => Scope.Grows.refl u
      exact Composite.relates_materializeAll nodeRelation_grows vs t

theorem repeats_exec (p : Plan) : Repeats p.exec := by
  cases p with
  | give v => exact .pure v
  | refuse f => exact fun _ _ _ _ h => nomatch h
  | node op domain vs k =>
    exact (repeats_materializeAll vs).bind (fun ns => repeats_intern _ k)
      fun ns t => t.intern_grows _ k

/-- A composite step finds all its nodes again, one operation after the other. -/
theorem Composite.repeats {m : Build α} (hm : Composite m) : Repeats m := by
  induction hm with
  | pure a => exact .pure a
  | throw f => exact fun _ _ _ _ h => nomatch h
  | configured f =>
    intro s t u a h hu
    cases h
    rw [← hu.config]
    rfl
  | operation p =>
    rw [p.build_eq]
    exact repeats_exec p.plan
  | bind _ hf ihm ihf => exact ihm.bind ihf fun a t => (hf a).relates nodeRelation_grows t

theorem composite_all (vs : List Value) : Composite (all vs) :=
  .foldlM (fun b v => .operation (.and b v)) _ vs

theorem repeats_applyKnown (known : Option Signature) (name : String) (result : Kind)
    (args : List Value) : Repeats (applyKnown known name result args) := by
  unfold applyKnown
  cases known with
  | none => exact repeats_exec _
  | some declared =>
    simp only
    split_ifs
    · exact repeats_exec _
    · exact fun _ _ _ _ h => nomatch h

/-- An application that was not refused agrees with what was known of the name. -/
theorem agrees_of_applyKnown {known : Option Signature} {name : String} {result : Kind}
    {args : List Value} {s t : Scope} {v : Value}
    (h : outcome (applyKnown known name result args) s = (.ok v, t)) :
    known.getD ⟨args.map Value.kind, result⟩ = ⟨args.map Value.kind, result⟩ := by
  unfold applyKnown at h
  cases known with
  | none => rfl
  | some declared =>
    simp only at h
    split_ifs at h with hsig
    · exact hsig
    · cases h

theorem applyKnown_self (name : String) (result : Kind) (args : List Value) :
    applyKnown (some ⟨args.map Value.kind, result⟩) name result args =
      applyKnown none name result args := if_pos rfl

end Build

namespace Work

variable {w u : Workspace} {name : String} {result : Kind} {args : List Value} {v : Value}

/-- What an application that succeeds does in the scope and in the session. -/
theorem applyKnown_of_apply (h : outcome (Work.apply name result args) w = (.ok v, u)) :
    outcome (Build.applyKnown (w.signature? name) name result args) w.scope = (.ok v, u.scope) ∧
      u.session = Operation.sessionAfter w (.apply name result args) := by
  rw [Operation.outcome_apply] at h
  obtain ⟨hok, rfl⟩ := Prod.mk.inj h
  exact ⟨Prod.ext hok rfl, rfl⟩

theorem grows_of_apply (h : outcome (Work.apply name result args) w = (.ok v, u)) :
    w.scope.Grows u.scope := by
  have hgrows := (Operation.apply name result args).scopeStep_grows w
  rwa [Operation.scopeStep, Operation.outcome_map, (applyKnown_of_apply h).1] at hgrows

/-- After an application that succeeds its name has the signature that it was applied at. -/
theorem signature?_of_apply (hw : w.session.Has w.scope.branches)
    (h : outcome (Work.apply name result args) w = (.ok v, u)) :
    u.signature? name = some ⟨args.map Value.kind, result⟩ := by
  obtain ⟨hrun, hsession⟩ := applyKnown_of_apply h
  have hsig := Operation.signature?_apply hw (grows_of_apply h).branches
    (Build.agrees_of_applyKnown hrun)
  rwa [← hsession] at hsig

end Work

/-- The calls that answer from their operands, making nodes where they need them. -/
inductive Call
  | primitive (p : Primitive)
  | all (vs : List Value)
  | apply (name : String) (result : Kind) (args : List Value)
  | check (c : RangeCheck Value)
  | overflow (op : Overflow.ArithOp) (a b : Value)
  | negOverflow (a : Value)

namespace Call

/-- Overflow predicates answer with conditions, other calls with a value. -/
def Answer : Call → Type
  | .primitive _ | .all _ | .apply .. => Value
  | .check _ | .overflow .. | .negOverflow _ => Overflow

def run : (c : Call) → Work c.Answer
  | .primitive p => Work.build p.build
  | .all vs => Work.build (Build.all vs)
  | .apply name result args => Work.apply name result args
  | .check c => Work.build c.build
  | .overflow op a b => Work.build (Overflow.ofOp op a b)
  | .negOverflow a => Work.build (Overflow.ofNeg a)

theorem composite_ofOp (op : Overflow.ArithOp) (a b : Value) :
    Build.Composite (Overflow.ofOp op a b) := by
  unfold Overflow.ofOp
  split
  · exact RangeCheck.composite_uadd a b
  · exact RangeCheck.composite_sadd a b
  · exact RangeCheck.composite_usub a b
  · exact RangeCheck.composite_ssub a b
  · exact RangeCheck.composite_umul a b
  · exact RangeCheck.composite_smul a b
  · exact (RangeCheck.udiv a b).composite
  · exact RangeCheck.composite_sdiv a b

theorem composite_ofNeg (a : Value) : Build.Composite (Overflow.ofNeg a) := by
  unfold Overflow.ofNeg
  split_ifs
  · exact RangeCheck.composite_sneg a
  · exact (RangeCheck.uneg a).composite

section Repeats

variable {w w' u : Workspace}

theorem repeats_build {α : Type} {m : Build α} (hm : Build.Composite m) {a : α}
    (h : outcome (Work.build m : Work α) w = (.ok a, u)) (hu : u.scope.Grows w'.scope) :
    outcome (Work.build m : Work α) w' = (.ok a, w') := by
  rw [outcome_build] at h
  obtain ⟨hok, rfl⟩ := Prod.mk.inj h
  rw [outcome_build, hm.repeats _ _ _ _ (Prod.ext hok rfl) hu]

theorem repeats_apply (hw : w.session.Has w.scope.branches) {name : String} {result : Kind}
    {args : List Value} {v : Value} (h : outcome (Work.apply name result args) w = (.ok v, u))
    (hu : u.scope.Grows w'.scope)
    (hsig : ∀ sig, u.signature? name = some sig → w'.signature? name = some sig) :
    outcome (Work.apply name result args) w' = (.ok v, w') := by
  have hknown := hsig _ (Work.signature?_of_apply hw h)
  obtain ⟨hrun, -⟩ := Work.applyKnown_of_apply h
  have hagrees := Build.agrees_of_applyKnown hrun
  have hsame : Build.applyKnown (w'.signature? name) name result args =
      Build.applyKnown (w.signature? name) name result args := by
    rw [hknown, Build.applyKnown_self]
    cases hs : w.signature? name with
    | none => rfl
    | some declared =>
      rw [hs, Option.getD_some] at hagrees
      rw [hagrees, Build.applyKnown_self]
  rw [Operation.outcome_apply, hsame, Build.repeats_applyKnown _ name result args _ _ _ _ hrun hu,
    Operation.sessionAfter, hknown]

/-- A call that has succeeded gives the same in every later workspace of its scope, and leaves that
as it is, if the signatures that the scope sees are still there. -/
theorem repeats (c : Call) (hw : w.session.Has w.scope.branches) {a : c.Answer}
    (h : outcome c.run w = (.ok a, u)) (hu : u.scope.Grows w'.scope)
    (hsig : ∀ name sig, u.signature? name = some sig → w'.signature? name = some sig) :
    outcome c.run w' = (.ok a, w') := by
  cases c with
  | primitive p => exact repeats_build (.operation p) h hu
  | all vs => exact repeats_build (Build.composite_all vs) h hu
  | apply name result args => exact repeats_apply hw h hu (hsig name)
  | check c => exact repeats_build c.composite h hu
  | overflow op x y => exact repeats_build (composite_ofOp op x y) h hu
  | negOverflow x => exact repeats_build (composite_ofNeg x) h hu

end Repeats

end Call

/-- What may be done in a session: something in a scope, or a scope is opened or derived. -/
inductive Deed
  | act (a : Act)
  | start (config : Config)
  | derive (scope : Nat) (level : Nat) (policy : Scope.Field → Scope.Policy)

namespace World

/-- The world with a scope that is derived from another one. -/
def derived (w : World) (s : Scope) (level : Nat) (policy : Scope.Field → Scope.Policy) : World :=
  ⟨(w.session.derive s level policy).2, w.scopes ++ [(w.session.derive s level policy).1], w.issued⟩

def deed (w : World) : Deed → World
  | .act a => w.act a
  | .start config => w.next (.start config)
  | .derive i level policy =>
    match w.scopes[i]? with
    | none => w
    | some s => w.derived s level policy

def deeds (w : World) (ds : List Deed) : World := ds.foldl deed w

section Lasting

variable {w : World} {i : Nat} {s : Scope}

theorem act_grows (w : World) (a : Act) : w.Grows (w.act a) := by
  cases a with
  | operate i o =>
    rcases hs : w.scopes[i]? with _ | s
    · rw [act, next_call_none w o hs]
      exact .refl w
    · rw [act, next_call w o hs]
      exact grows_called hs (o.scopeStep_grows (w.workspace s))
  | fork i purpose =>
    simp only [act, next]
    rcases w.scopes[i]? with _ | s
    · exact .refl w
    · simp only
      rcases w.session.fork s purpose with e | ⟨child, session⟩
      · exact .refl w
      · exact grows_opened w session child
  | lower i t body =>
    simp only [act]
    rcases w.scopes[i]? with _ | s
    · exact .refl w
    · exact fun j r hr => ⟨r, hr, .refl r⟩

/-- Whatever is done, no scope loses anything. -/
theorem deed_grows (w : World) (d : Deed) : w.Grows (w.deed d) := by
  cases d with
  | act a => exact w.act_grows a
  | start config => exact grows_opened w _ _
  | derive i level policy =>
    simp only [deed]
    rcases w.scopes[i]? with _ | s
    · exact .refl w
    · exact grows_opened w _ _

/-- The world with the `i`th scope and the session as a call left them. -/
def after (w : World) (i : Nat) (u : Workspace) : World :=
  ⟨u.session, w.scopes.set i u.scope, w.issued⟩

/-- No signature that a scope sees is taken from it or changed by the deeds. -/
def KeepsSignatures : World → List Deed → Prop
  | _, [] => True
  | w, d :: ds =>
    (∀ s ∈ w.scopes, ∀ name sig,
      w.signatures s name = some sig → (w.deed d).signatures s name = some sig) ∧
    (w.deed d).KeepsSignatures ds

/-- A scope is there after the deeds, with all that it held and saw. -/
theorem deeds_lasting {ds : List Deed} (hk : w.KeepsSignatures ds) (hs : w.scopes[i]? = some s) :
    ∃ t, (w.deeds ds).scopes[i]? = some t ∧ s.Grows t ∧
      ∀ name sig, w.signatures s name = some sig → (w.deeds ds).signatures t name = some sig := by
  induction ds generalizing w s with
  | nil => exact ⟨s, hs, .refl s, fun _ _ h => h⟩
  | cons d ds ih =>
    obtain ⟨t, ht, hst⟩ := w.deed_grows d i s hs
    obtain ⟨u, hu, htu, hsig⟩ := ih hk.2 ht
    refine ⟨u, hu, hst.trans htu, fun name sig h => hsig name sig ?_⟩
    rw [signatures_congr _ hst.branches]
    exact hk.1 s (List.mem_of_getElem? hs) name sig h

end Lasting

section Registries

variable {w : World}

theorem opened_inRange (hw : w.InRange) {session : Session} {child : Scope}
    (hu : w.session.uninterpreted.contents.length ≤ session.uninterpreted.contents.length)
    (hf : w.session.userFunctions.contents.length ≤ session.userFunctions.contents.length)
    (hd : w.session.definitions.contents.length ≤ session.definitions.contents.length)
    (ha : w.session.axioms.contents.length ≤ session.axioms.contents.length)
    (hc : Workspace.InRange ⟨session, child⟩) :
    InRange ⟨session, w.scopes ++ [child], w.issued⟩ := by
  intro s hs
  rcases List.mem_append.1 hs with hs | hs
  · obtain ⟨hsu, hsf, hsd, hsa⟩ := hw s hs
    exact ⟨hsu.trans_le hu, hsf.trans_le hf, hsd.trans_le hd, hsa.trans_le ha⟩
  · obtain rfl := List.mem_singleton.1 hs
    exact hc

theorem deed_inRange (hw : w.InRange) (d : Deed) : (w.deed d).InRange := by
  cases d with
  | act a => exact act_inRange hw a
  | start config =>
    have hle {α : Type} (bs : Branches α) (x : α) :
        bs.contents.length ≤ (bs.add x).2.contents.length := (bs.lt_add x).le
    exact opened_inRange hw (hle _ _) (hle _ _) (hle _ _) (hle _ _)
      ⟨Branches.lt_add _ _, Branches.lt_add _ _, Branches.lt_add _ _, Branches.lt_add _ _⟩
  | derive i level policy =>
    simp only [deed]
    rcases hs : w.scopes[i]? with _ | s
    · exact hw
    · obtain ⟨hu, hf, hd, ha⟩ := hw s (List.mem_of_getElem? hs)
      have hu' := w.session.uninterpreted.inherit_lt hu (policy .uninterpreted)
      have hf' := w.session.userFunctions.inherit_lt hf (policy .userFunctions)
      have hd' := w.session.definitions.inherit_lt hd (policy .definitions)
      have ha' := w.session.axioms.inherit_lt ha (policy .axioms)
      exact opened_inRange hw hu'.2 hf'.2 hd'.2 ha'.2 ⟨hu'.1, hf'.1, hd'.1, ha'.1⟩

/-- Whatever was done in a session, it has the registries of its scopes. -/
theorem deeds_inRange (hw : w.InRange) (ds : List Deed) : (w.deeds ds).InRange := by
  induction ds generalizing w with
  | nil => exact hw
  | cons d ds ih => exact ih (deed_inRange hw d)

theorem empty_inRange : empty.InRange := fun _ hs => (List.not_mem_nil hs).elim

end Registries

/-- Whatever was done in a session before, and whatever is done between two same calls of a scope,
the second gives what the first gave and leaves the scope and the session as they are, if no
signature is taken from a scope or changed in between. -/
theorem repeated_call {before : List Deed} {w : World} (hw : w = empty.deeds before) {i : Nat}
    {s : Scope} (hs : w.scopes[i]? = some s) (c : Call) {a : c.Answer} {u : Workspace}
    (h : outcome c.run (w.workspace s) = (.ok a, u)) (between : List Deed)
    (hk : (w.after i u).KeepsSignatures between) :
    ∃ t, ((w.after i u).deeds between).scopes[i]? = some t ∧
      outcome c.run (((w.after i u).deeds between).workspace t) =
        (.ok a, ((w.after i u).deeds between).workspace t) := by
  have hrange : (w.workspace s).InRange :=
    (hw ▸ deeds_inRange empty_inRange before) s (List.mem_of_getElem? hs)
  have hu : (w.after i u).scopes[i]? = some u.scope :=
    List.getElem?_set_self (List.getElem?_eq_some_iff.1 hs).1
  obtain ⟨t, ht, hgrows, hsig⟩ := deeds_lasting hk hu
  exact ⟨t, ht, c.repeats ⟨hrange.uninterpreted, hrange.userFunctions⟩ h hgrows hsig⟩

/-- A scope with two inputs. -/
def twoInputs : List Deed :=
  [.start {}, .act (.operate 0 (.input .universal "x" (.unsigned 4))),
    .act (.operate 0 (.input .universal "y" (.unsigned 4)))]

def applyToX : Call := .apply "f" .bool [.symbolic 2 (.unsigned 4) 0]

/-- The function is applied to the other input, another function is lowered, and the result of the
first application is negated. -/
def busyMeanwhile : List Deed :=
  [.act (.operate 0 (.apply "f" .bool [.symbolic 3 (.unsigned 4) 0])),
    .act (.lower 0 (.lambda .int) (.result (.concrete (.int 1)))),
    .act (.operate 0 (.primitive (.not (.symbolic 4 .bool 0))))]

theorem keepsSignatures_cons {w : World} {d : Deed} {ds : List Deed}
    (hu : (w.deed d).session.uninterpreted = w.session.uninterpreted)
    (hf : (w.deed d).session.userFunctions = w.session.userFunctions)
    (h : (w.deed d).KeepsSignatures ds) : w.KeepsSignatures (d :: ds) := by
  refine ⟨fun s _ name sig hsig => ?_, h⟩
  simp only [signatures, workspace, Workspace.signature?, Workspace.userFunctions,
    Workspace.uninterpreted, hu, hf] at hsig ⊢
  exact hsig

theorem repeated_call_applyToX :
    ∃ s u t, (empty.deeds twoInputs).scopes[0]? = some s ∧
      outcome applyToX.run ((empty.deeds twoInputs).workspace s) = (.ok (.symbolic 4 .bool 0), u) ∧
      outcome applyToX.run
          ((((empty.deeds twoInputs).after 0 u).deeds busyMeanwhile).workspace t) =
        (.ok (.symbolic 4 .bool 0),
          (((empty.deeds twoInputs).after 0 u).deeds busyMeanwhile).workspace t) := by
  obtain ⟨s, hs⟩ : ∃ s, (empty.deeds twoInputs).scopes[0]? = some s := ⟨_, rfl⟩
  obtain ⟨u, hu⟩ : ∃ u, outcome applyToX.run ((empty.deeds twoInputs).workspace s) =
      (.ok (.symbolic 4 .bool 0), u) := by
    cases hs
    exact ⟨_, rfl⟩
  have hk : ((empty.deeds twoInputs).after 0 u).KeepsSignatures busyMeanwhile := by
    cases hs
    cases hu
    refine keepsSignatures_cons ?_ ?_
      (keepsSignatures_cons ?_ ?_ (keepsSignatures_cons ?_ ?_ trivial))
    all_goals decide +kernel
  obtain ⟨t, -, ht⟩ := repeated_call rfl hs applyToX hu busyMeanwhile hk
  exact ⟨s, u, t, hs, hu, ht⟩

end World

end SmtLowering
