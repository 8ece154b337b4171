import SmtLowering.Proofs.Computation

/-!
# The three lowerings as one

A `Target` says what a computation is lowered to. Each lowering then does the same thing: it admits
the computation to a fork or refuses it, runs it there, and concludes with what it left
(`Target.lower_run`). Nothing but the computation sees the caller's own effects, so this holds in
whichever monad they are.
-/

namespace SmtLowering

section Advance

variable {ε σ α β : Type} {m : Type → Type} [Monad m]

/-- The result of a step and the state it leaves, with the caller's own effects. -/
def advance (x : ExceptT ε (StateT σ m) α) (s : σ) : m (Except ε α × σ) := x.run.run s

variable (s : σ)

theorem advance_pure (a : α) : advance (pure a : ExceptT ε (StateT σ m) α) s = pure (.ok a, s) :=
  rfl

theorem advance_throw (e : ε) :
    advance (throw e : ExceptT ε (StateT σ m) α) s = pure (.error e, s) := rfl

theorem advance_bind (x : ExceptT ε (StateT σ m) α) (f : α → ExceptT ε (StateT σ m) β) :
    advance (x >>= f) s = advance x s >>= fun
      | (.ok a, s) => advance (f a) s
      | (.error e, s) => pure (.error e, s) := by
  simp only [advance, ExceptT.run_bind, StateT.run_bind]
  refine bind_congr fun p => ?_
  rcases p with ⟨_ | _, _⟩ <;> rfl

theorem advance_tryCatch (x : ExceptT ε (StateT σ m) α) (f : ε → ExceptT ε (StateT σ m) α) :
    advance (tryCatch x f) s = advance x s >>= fun
      | (.ok a, s) => pure (.ok a, s)
      | (.error e, s) => advance (f e) s := by
  simp only [advance, tryCatch, tryCatchThe, MonadExceptOf.tryCatch, ExceptT.tryCatch,
    ExceptT.run_mk, StateT.run_bind]
  refine bind_congr fun p => ?_
  rcases p with ⟨_ | _, _⟩ <;> rfl

theorem advance_ofExcept {δ : Type} (fault : δ → Fault LowerError) (r : Except δ α) (s : Session) :
    advance (Lowering.ofExcept fault r : LowerT m α) s = pure (r.mapError fault, s) := by
  cases r <;> rfl

theorem mapError_eq_ok {δ : Type} {f : δ → ε} {r : Except δ α} {a : α}
    (h : r.mapError f = .ok a) : r = .ok a := by
  cases r with
  | error e => cases h
  | ok b =>
    cases h
    rfl

variable [LawfulMonad m]

theorem advance_get : advance (get : ExceptT ε (StateT σ m) σ) s = pure (.ok s, s) := by
  change (pure (s, s) : m (σ × σ)) >>= (fun p => pure (Except.ok p.1, p.2)) = _
  rw [pure_bind]

theorem advance_modify (f : σ → σ) :
    advance (modify f : ExceptT ε (StateT σ m) PUnit) s = pure (.ok ⟨⟩, f s) := by
  change (pure (PUnit.unit, f s) : m (PUnit × σ)) >>= (fun p => pure (Except.ok p.1, p.2)) = _
  rw [pure_bind]

theorem advance_set (s' : σ) :
    advance (set s' : ExceptT ε (StateT σ m) PUnit) s = pure (.ok ⟨⟩, s') := by
  change (pure (PUnit.unit, s') : m (PUnit × σ)) >>= (fun p => pure (Except.ok p.1, p.2)) = _
  rw [pure_bind]

end Advance

/-- What a computation is lowered to. -/
inductive Target
  | lambda (expected : Kind)
  | function (name : String) (expected : Kind)
  | constraint (label : String)
  deriving DecidableEq

namespace Target

def purpose : Target → Purpose
  | lambda _ => .lambda
  | function .. => .named
  | constraint _ => .constraint

/-- How errors call the lowering. -/
def context : Target → String
  | lambda _ => Purpose.lambda.describe
  | function name _ => s!"{Purpose.named.describe} {name}"
  | constraint label => s!"{Purpose.constraint.describe} {label}"

def expected : Target → Kind
  | lambda k | function _ k => k
  | constraint _ => .bool

/-- The name that is defined, if one is. -/
def name? : Target → Option String
  | function name _ => some name
  | lambda _ | constraint _ => none

abbrev Result : Target → Type
  | function .. => Declaration
  | lambda _ | constraint _ => String

section Parts

variable {m : Type → Type} [Monad m]

def lower (parent : Scope) (x : WorkT m Value) : (t : Target) → LowerT m t.Result
  | lambda k => Lowering.lambda parent k x
  | function name k => Lowering.function parent name k x
  | constraint label => Lowering.constraint parent label x

/-- The fork for the computation, unless it is refused before it runs. -/
def start (w : Workspace) (t : Target) : Except LowerError (Scope × Session) :=
  match t.name?.bind fun name => (w.userFunctions.find? name).map (name, ·) with
  | some (name, sig) => .error (.unsupported t.context (.redefinition name sig))
  | none => w.session.fork w.scope t.purpose

/-- The valid trace of what a computation left in its scope. -/
def settle (context : String) (expected : Kind) (r : Except (Fault ValueError) NodeId)
    (child : Scope) : Except (Fault LowerError) ValidTrace :=
  match r with
  | .error (.error e) => .error (.error (.replay context e))
  | .error (.violation v) => .error (.violation v)
  | .ok _ => (child.finish.validate context expected).mapError .error

/-- What a valid trace is spelled as, in the workspace that the computation left. -/
def emit (w : Workspace) (v : ValidTrace) : (t : Target) → Except (Fault LowerError) t.Result
  | lambda _ => v.lambdaText.mapError .violation
  | function name k =>
    let sig : Signature := ⟨v.params.map Prod.snd, k⟩
    match w.uninterpreted.find? name with
    | some used =>
      if used = sig then (v.declaration name).mapError .violation
      else .error (.error (.unsupported (function name k).context (.selfCall used sig)))
    | none => (v.declaration name).mapError .violation
  | constraint label => (v.constraintText label).mapError .violation

/-- The result goes into the registries. -/
def enter (w : Workspace) (v : ValidTrace) : (t : Target) → t.Result → Workspace
  | lambda _, _ => w
  | function _ k, d => w.registerDefinition ⟨v.params.map Prod.snd, k⟩ d
  | constraint _, text => w.addAxiom text

/-- After an error, the name that was to be defined is unknown again unless it was known before. -/
def withdraw (before w : Workspace) : Target → Fault LowerError → Workspace
  | function name _, .error _ =>
    if (before.uninterpreted.find? name).isSome then w else w.forgetUninterpreted name
  | _, _ => w

/-- How the lowering ends once the computation has run in the child. -/
def conclude (t : Target) (before : Workspace) (r : Except (Fault ValueError) NodeId)
    (child : Workspace) : Except (Fault LowerError) t.Result × Session :=
  let w : Workspace := ⟨child.session, before.scope⟩
  match settle t.context t.expected r child.scope with
  | .error f => (.error f, (t.withdraw before w f).session)
  | .ok v =>
    match t.emit w v with
    | .error f => (.error f, (t.withdraw before w f).session)
    | .ok a => (.ok a, (t.enter w v a).session)

/-- How a definition ends when no signature is taken back. -/
def define (w : Workspace) (name : String) (k : Kind) (r : Except (Fault ValueError) NodeId)
    (child : Workspace) : Except (Fault LowerError) Declaration × Session :=
  let w' : Workspace := ⟨child.session, w.scope⟩
  match settle (function name k).context k r child.scope with
  | .error f => (.error f, w'.session)
  | .ok v =>
    match (function name k).emit w' v with
    | .error f => (.error f, w'.session)
    | .ok d => (.ok d, ((function name k).enter w' v d).session)

theorem conclude_function (w : Workspace) (name : String) (k : Kind)
    (r : Except (Fault ValueError) NodeId) (child : Workspace) :
    (function name k).conclude w r child =
      match define w name k r child with
      | (.error f, s) => (.error f, (withdraw w ⟨s, w.scope⟩ (function name k) f).session)
      | (.ok d, s) => (.ok d, s) := by
  simp only [conclude, define, expected]
  rcases settle (function name k).context k r child.scope with f | v
  · rfl
  · simp only
    rcases emit ⟨child.session, w.scope⟩ v (function name k) with f | d
    · rfl
    · rfl

end Parts

section Run

variable {m : Type → Type} [Monad m] [LawfulMonad m] (x : WorkT m Value)

theorem trace_run (parent : Scope) (purpose : Purpose) (context : String) (expected : Kind)
    (s : Session) :
    advance (Lowering.trace parent purpose context expected x) s =
      (match s.fork parent purpose with
      | .error e => pure (.error (.error e), s)
      | .ok (child, s') => do
        let (r, c) ← advance (Lowering.replayed x) ⟨s', child⟩
        pure (settle context expected r c.scope, c.session)) := by
  unfold Lowering.trace Lowering.fork
  simp only [advance_bind, advance_get, advance_ofExcept, pure_bind]
  rcases h : s.fork parent purpose with e | ⟨child, s'⟩
  · simp [Except.mapError]
  · simp only [Except.mapError, pure_bind, advance_set, advance_pure]
    change (advance (Lowering.replayed x) ⟨s', child⟩ >>= _) >>= _ = _
    rw [bind_assoc]
    refine bind_congr fun p => ?_
    rcases p with ⟨(_ | _) | _, _⟩ <;> simp [settle]
    rfl

theorem checkSelfCalls_run (parent : Scope) (name context : String) (sig : Signature)
    (s : Session) :
    advance (Lowering.checkSelfCalls parent name context sig : LowerT m Unit) s =
      pure (match Workspace.uninterpreted ⟨s, parent⟩ |>.find? name with
        | some used =>
          if used = sig then .ok () else .error (.error (.unsupported context (.selfCall used sig)))
        | none => .ok (), s) := by
  simp only [Lowering.checkSelfCalls, advance_bind, advance_get, pure_bind]
  rcases (Workspace.uninterpreted ⟨s, parent⟩).find? name with _ | used
  · rfl
  · simp only
    split_ifs <;> rfl

theorem define_run (w : Workspace) (name : String) (k : Kind) :
    advance (Lowering.define w.scope name k (function name k).context x) w.session =
      (match w.session.fork w.scope .named with
      | .error e => pure (.error (.error e), w.session)
      | .ok (child, s) => do
        let (r, c) ← advance (Lowering.replayed x) ⟨s, child⟩
        pure (define w name k r c)) := by
  simp only [Lowering.define, advance_bind, trace_run, checkSelfCalls_run, advance_ofExcept,
    advance_modify, advance_pure]
  rcases w.session.fork w.scope .named with e | ⟨child, s⟩
  · simp
  · simp only [bind_assoc]
    refine bind_congr fun p => ?_
    obtain ⟨r, c⟩ := p
    simp only [pure_bind, define]
    rcases settle (function name k).context k r c.scope with f | v
    · simp
    · simp only [emit]
      rcases Workspace.uninterpreted ⟨c.session, w.scope⟩ |>.find? name with _ | used
      · simp only
        rcases v.declaration name with e | d <;> simp [Except.mapError, enter]
      · simp only
        split_ifs
        · simp only
          rcases v.declaration name with e | d <;> simp [Except.mapError, enter]
        · simp

/-- Each lowering admits its computation, runs it in the fork and concludes. -/
theorem lower_run (t : Target) (w : Workspace) :
    advance (t.lower w.scope x) w.session =
      (match t.start w with
      | .error e => pure (.error (.error e), w.session)
      | .ok (child, s) => do
        let (r, c) ← advance (Lowering.replayed x) ⟨s, child⟩
        pure (t.conclude w r c)) := by
  cases t with
  | lambda k =>
    simp only [lower, Lowering.lambda, advance_bind, trace_run, advance_ofExcept, start, name?,
      Option.bind_none, purpose, conclude]
    rcases w.session.fork w.scope .lambda with e | ⟨child, s⟩
    · simp
    · simp only [bind_assoc]
      refine bind_congr fun p => ?_
      obtain ⟨r, c⟩ := p
      simp only [pure_bind, context, expected]
      rcases settle Purpose.lambda.describe k r c.scope with f | v
      · simp [withdraw]
      · simp only [emit]
        rcases v.lambdaText with e | a <;> simp [Except.mapError, enter, withdraw]
  | function name k =>
    have hdefine : advance (Lowering.define w.scope name k s!"{Purpose.named.describe} {name}" x)
        w.session = _ := define_run x w name k
    simp only [lower, Lowering.function, advance_bind, advance_get, pure_bind, start, name?,
      Option.bind_some]
    rcases w.userFunctions.find? name with _ | sig
    · obtain ⟨⟨child, s⟩, hf⟩ : ∃ p, w.session.fork w.scope .named = .ok p := ⟨_, rfl⟩
      simp only [Option.map_none, purpose, hf] at hdefine ⊢
      split_ifs with hun
      · rw [hdefine]
        refine bind_congr fun ⟨r, c⟩ => ?_
        rw [conclude_function]
        rcases define w name k r c with ⟨(_ | _) | _, s'⟩ <;> simp [withdraw, hun]
      · rw [advance_tryCatch, hdefine]
        simp only [bind_assoc, pure_bind]
        refine bind_congr fun ⟨r, c⟩ => ?_
        rw [conclude_function]
        rcases define w name k r c with ⟨(_ | _) | _, s'⟩ <;>
          simp [withdraw, hun, advance_bind, Lowering.forgetAfter, advance_modify, advance_throw]
    · rfl
  | constraint label =>
    simp only [lower, Lowering.constraint, advance_bind, trace_run, advance_ofExcept,
      advance_modify, advance_pure, start, name?, Option.bind_none, purpose, conclude]
    rcases w.session.fork w.scope .constraint with e | ⟨child, s⟩
    · simp
    · simp only [bind_assoc]
      refine bind_congr fun p => ?_
      obtain ⟨r, c⟩ := p
      simp only [pure_bind, context, expected]
      rcases settle s!"{Purpose.constraint.describe} {label}" .bool r c.scope with f | v
      · simp [withdraw]
      · simp only [emit]
        rcases v.constraintText label with e | a <;> simp [Except.mapError, enter, withdraw]

end Run

section Admitted

variable {t : Target} {w : Workspace} {child : Scope} {s : Session}

/-- What is admitted runs in a fork, and defines no name that is callable already. -/
theorem start_eq_ok (h : t.start w = .ok (child, s)) :
    w.session.fork w.scope t.purpose = .ok (child, s) ∧
      ∀ name, t.name? = some name → w.userFunctions.find? name = none := by
  unfold start at h
  split at h
  · cases h
  · next hnone =>
    refine ⟨h, fun name hname => ?_⟩
    rw [hname, Option.bind_some, Option.map_eq_none_iff] at hnone
    exact hnone

/-- A lowering ends in the session of the child, with the result entered or the name withdrawn. -/
theorem conclude_cases (t : Target) (w : Workspace) (r : Except (Fault ValueError) NodeId)
    (c : Workspace) :
    (∃ f, t.conclude w r c = (.error f, (t.withdraw w ⟨c.session, w.scope⟩ f).session)) ∨
      ∃ v a, t.emit ⟨c.session, w.scope⟩ v = .ok a ∧
        c.scope.finish.validate t.context t.expected = .ok v ∧
        t.conclude w r c = (.ok a, (t.enter ⟨c.session, w.scope⟩ v a).session) := by
  unfold conclude
  rcases hs : settle t.context t.expected r c.scope with f | v
  · exact .inl ⟨f, rfl⟩
  · simp only
    rcases he : t.emit ⟨c.session, w.scope⟩ v with f | a
    · exact .inl ⟨f, rfl⟩
    · refine .inr ⟨v, a, he, ?_, rfl⟩
      rcases r with (_ | _) | _
      · cases hs
      · cases hs
      · exact mapError_eq_ok hs

end Admitted

end Target

namespace Computation

/-- A lowering of the body, whichever it is, and what comes after it. -/
def lower : (t : Target) → Computation → (Except LowerError t.Result → Computation) → Computation
  | .lambda k => lambda k
  | .function name k => function name k
  | .constraint label => constraint label

theorem run_lower (t : Target) (body : Computation)
    (next : Except LowerError t.Result → Computation) :
    (lower t body next).run = (do
      let r ← Lowering.nested fun s => t.lower s body.run
      (next r).run) := by
  cases t with
  | lambda k | function name k | constraint label => rfl

/-- Induction with one case for all lowerings. -/
theorem induction_lower {motive : Computation → Prop} (result : ∀ v, motive (.result v))
    (abort : ∀ e, motive (.abort e))
    (operate : ∀ o next, (∀ r, motive (next r)) → motive (.operate o next))
    (inspect : ∀ next, (∀ w, motive (next w)) → motive (.inspect next))
    (lower : ∀ t body next, motive body → (∀ r, motive (next r)) → motive (lower t body next))
    (c : Computation) : motive c := by
  induction c with
  | result v => exact result v
  | abort e => exact abort e
  | operate o next ih => exact operate o next ih
  | inspect next ih => exact inspect next ih
  | lambda k body next ihb ih => exact lower (.lambda k) body next ihb ih
  | function name k body next ihb ih => exact lower (.function name k) body next ihb ih
  | constraint label body next ihb ih => exact lower (.constraint label) body next ihb ih

end Computation

/-- A lowering on its own, without effects of the caller. -/
theorem Target.outcome_lower (t : Target) (w : Workspace) (x : Work Value) :
    (t.lower w.scope x).run.run w.session =
      match t.start w with
      | .error e => (.error (.error e), w.session)
      | .ok (child, s) =>
        t.conclude w (outcome (Lowering.replayed x) ⟨s, child⟩).1
          (outcome (Lowering.replayed x) ⟨s, child⟩).2 := by
  refine (t.lower_run x w).trans ?_
  rcases t.start w with e | ⟨child, s⟩
  · rfl
  · rfl

/-- A lowering that succeeds ran its computation in a fork, and gives out the valid trace of what
that left. -/
theorem Target.lower_ok {t : Target} {w : Workspace} {x : Work Value} {a : t.Result} {s : Session}
    (h : (t.lower w.scope x).run.run w.session = (.ok a, s)) :
    ∃ child s₀ v, t.start w = .ok (child, s₀) ∧
      (outcome (Lowering.replayed x) ⟨s₀, child⟩).2.scope.finish.validate t.context t.expected =
        .ok v ∧
      t.emit ⟨(outcome (Lowering.replayed x) ⟨s₀, child⟩).2.session, w.scope⟩ v = .ok a := by
  rw [t.outcome_lower] at h
  rcases ha : t.start w with e | ⟨child, s₀⟩ <;> rw [ha] at h
  · cases h
  · simp only at h
    rcases t.conclude_cases w (outcome (Lowering.replayed x) ⟨s₀, child⟩).1
      (outcome (Lowering.replayed x) ⟨s₀, child⟩).2 with ⟨f, hc⟩ | ⟨v, a, he, hv, hc⟩ <;>
      rw [hc] at h <;> cases h
    exact ⟨child, s₀, v, rfl, hv, he⟩

section Steps

variable {α : Type} (w : Workspace)

theorem Work.outcome_attempt (x : Work α) :
    outcome (attempt x) w =
      match outcome x w with
      | (.ok a, w) => (.ok (.ok a), w)
      | (.error (.error e), w) => (.ok (.error e), w)
      | (.error (.violation v), w) => (.error (.violation v), w) := rfl

theorem Work.attempt_workspace (x : Work α) : (outcome (attempt x) w).2 = (outcome x w).2 := by
  rw [outcome_attempt]
  rcases outcome x w with ⟨(e | v) | a, w'⟩ <;> rfl

/-- The result of a computation is recorded as by the operation. -/
theorem Work.addOutput_workspace (v : Value) :
    (outcome (Work.build (Build.addOutput v) : Work NodeId) w).2 =
      (outcome (Operation.addOutput v).run w).2 := by
  rw [Operation.run, outcome_bind]
  rcases outcome (Work.build (Build.addOutput v) : Work NodeId) w with ⟨_ | _, _⟩ <;> rfl

theorem Lowering.outcome_nested (x : Scope → LowerT Id α) :
    outcome (nested x) w =
      match (x w.scope).run.run w.session with
      | (.ok a, s) => (.ok (.ok a), ⟨s, w.scope⟩)
      | (.error (.error e), s) => (.ok (.error e), ⟨s, w.scope⟩)
      | (.error (.violation v), s) => (.error (.violation v), ⟨s, w.scope⟩) := by
  change ((x w.scope).run.run w.session >>= _ : Id _) = _
  rcases (x w.scope).run.run w.session with ⟨(e | v) | a, s⟩ <;> rfl

theorem Lowering.nested_workspace (x : Scope → LowerT Id α) :
    (outcome (nested x) w).2 = ⟨((x w.scope).run.run w.session).2, w.scope⟩ := by
  rw [outcome_nested]
  rcases (x w.scope).run.run w.session with ⟨(e | v) | a, s⟩ <;> rfl

end Steps

namespace Computation

variable {P : Operation → Prop}

theorem uses_lower {t : Target} {body : Computation}
    {next : Except LowerError t.Result → Computation} :
    (lower t body next).Uses P ↔ body.Uses P ∧ ∀ r, (next r).Uses P := by
  cases t <;> exact Iff.rfl

theorem lowers_lower {t : Target} {body : Computation}
    {next : Except LowerError t.Result → Computation} {f : String} :
    (lower t body next).Lowers f ↔
      t.name? = some f ∨ body.Lowers f ∨ ∃ r, (next r).Lowers f := by
  cases t with
  | lambda k | constraint label => simp [lower, Lowers, Target.name?]
  | function name k => simp [lower, Lowers, Target.name?]

theorem uses_true (c : Computation) : c.Uses fun _ => True := by
  induction c using induction_lower with
  | result v => trivial
  | abort e => trivial
  | operate o next ih => exact ⟨trivial, ih⟩
  | inspect next ih => exact ih
  | lower t body next ihb ih => exact uses_lower.2 ⟨ihb, ih⟩

/-- The relation is kept by the operations of `P`, an output at the end of a computation
included. -/
structure Carries (P : Operation → Prop) (R : Workspace → Workspace → Prop) : Prop where
  output : ∀ v, P (.addOutput v)
  refl : ∀ w, R w w
  trans : ∀ u v w, R u v → R v w → R u w
  operate : ∀ o w, P o → R w (outcome o.run w).2

/-- The relation is also kept by a lowering if it is by the computation that is lowered. -/
structure Relates (P : Operation → Prop) (R : Workspace → Workspace → Prop) : Prop
    extends Carries P R where
  conclude : ∀ (t : Target) (w : Workspace) child s c r, t.start w = .ok (child, s) →
    R ⟨s, child⟩ c → R w ⟨(t.conclude w r c).2, w.scope⟩

/-- The relation is also kept by a lowering to something without a name, or of a name of `N`. -/
structure RelatesNaming (P : Operation → Prop) (N : String → Prop)
    (R : Workspace → Workspace → Prop) : Prop extends Carries P R where
  conclude : ∀ (t : Target) (w : Workspace) child s c r, (∀ f, t.name? = some f → N f) →
    t.start w = .ok (child, s) → R ⟨s, child⟩ c → R w ⟨(t.conclude w r c).2, w.scope⟩

variable {N : String → Prop} {R : Workspace → Workspace → Prop} {x : Work Value}

theorem Relates.naming (h : Relates P R) : RelatesNaming P N R where
  toCarries := h.toCarries
  conclude t w child s c r _ := h.conclude t w child s c r

theorem Carries.replayed (h : Carries P R) {w : Workspace} (hx : R w (outcome x w).2) :
    R w (outcome (Lowering.replayed x) w).2 := by
  rw [Lowering.replayed, outcome_bind]
  rcases hr : outcome x w with ⟨_ | v, w'⟩ <;> rw [hr] at hx
  · exact hx
  · have ho : R w' (outcome (Work.build (Build.addOutput v) : Work NodeId) w').2 := by
      rw [Work.addOutput_workspace]
      exact h.operate (.addOutput v) w' (h.output v)
    exact h.trans _ _ _ hx ho

section Naming

variable (h : RelatesNaming P N R)
include h

theorem RelatesNaming.lower (hx : ∀ w, R w (outcome x w).2) (t : Target)
    (ht : ∀ f, t.name? = some f → N f) (w : Workspace) :
    R w ⟨((t.lower w.scope x).run.run w.session).2, w.scope⟩ := by
  rw [t.outcome_lower]
  rcases ha : t.start w with e | ⟨child, s⟩
  · exact h.refl w
  · exact h.conclude t w child s _ _ ht ha (h.replayed (hx ⟨s, child⟩))

/-- What operations and lowerings keep, computations keep. -/
theorem RelatesNaming.run (c : Computation) (hc : c.Uses P) (hN : ∀ f, c.Lowers f → N f)
    (w : Workspace) : R w (outcome c.run w).2 := by
  induction c using induction_lower generalizing w with
  | result v => exact h.refl w
  | abort e => exact h.refl w
  | operate o next ih =>
    have hstep := h.operate o w hc.1
    exact Work.attempt_bind (Q := R w) hstep fun r =>
      h.trans _ _ _ hstep (ih r (hc.2 r) (fun f hf => hN f ⟨r, hf⟩) _)
  | inspect next ih => exact ih w (hc w) (fun f hf => hN f ⟨w, hf⟩) w
  | lower t body next ihb ih =>
    rw [uses_lower] at hc
    simp only [lowers_lower] at hN
    rw [run_lower]
    exact Lowering.Ensures.nested (P := fun _ s => R w ⟨s, w.scope⟩) (R := R w)
      (h.lower (ihb hc.1 fun f hf => hN f (.inr (.inl hf))) t (fun f hf => hN f (.inl hf)) w)
      (fun _ _ hs => hs)
      fun _ r s hs => h.trans _ _ _ hs (ih r (hc.2 r) (fun f hf => hN f (.inr (.inr ⟨r, hf⟩))) _)

end Naming

variable (h : Relates P R)
include h

theorem Relates.lower (hx : ∀ w, R w (outcome x w).2) (t : Target) (w : Workspace) :
    R w ⟨((t.lower w.scope x).run.run w.session).2, w.scope⟩ :=
  (h.naming (N := fun _ => True)).lower hx t (fun _ _ => trivial) w

theorem Relates.run (c : Computation) (hc : c.Uses P) (w : Workspace) :
    R w (outcome c.run w).2 := (h.naming (N := fun _ => True)).run c hc (fun _ _ => trivial) w

end Computation

end SmtLowering
