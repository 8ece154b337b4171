import SmtLowering.Lowering
import SmtLowering.Proofs.Operation

/-!
# Computations

What a caller runs in a scope: operations and lowerings, one after the other, each chosen by what
the earlier ones gave. A lowering takes a computation for its child scope in turn, so a whole
session is a computation in its outermost scope (`Computation.run`).

`Lowering.Ensures` says what holds when a lowering has ended, whether or not it failed. Its rules
follow the way lowerings are put together, down to `ensures_trace`, where the child's computation
runs.
-/

namespace SmtLowering

inductive Computation
  | result (v : Value)
  | abort (e : ValueError)
  | operate (o : Operation) (next : Except ValueError (Option Value) → Computation)
  /-- Looks at the session and the scope, which is all that a computation can observe. -/
  | inspect (next : Workspace → Computation)
  | lambda (expected : Kind) (body : Computation) (next : Except LowerError String → Computation)
  | function (name : String) (expected : Kind) (body : Computation)
    (next : Except LowerError Declaration → Computation)
  | constraint (label : String) (body : Computation) (next : Except LowerError String → Computation)

/-- A step whose error is an answer; a violation still ends the computation. -/
def Work.attempt {α : Type} (x : Work α) : Work (Except ValueError α) := fun w =>
  match outcome x w with
  | (.ok a, w) => (.ok (.ok a), w)
  | (.error (.error e), w) => (.ok (.error e), w)
  | (.error (.violation v), w) => (.error (.violation v), w)

namespace Computation

def run : Computation → Work Value
  | result v => pure v
  | abort e => throw (.error e)
  | operate o next => do
    let r ← Work.attempt o.run
    (next r).run
  | inspect next => do
    let w ← get
    (next w).run
  | lambda expected body next => do
    let r ← Lowering.nested fun s => Lowering.lambda s expected body.run
    (next r).run
  | function name expected body next => do
    let r ← Lowering.nested fun s => Lowering.function s name expected body.run
    (next r).run
  | constraint label body next => do
    let r ← Lowering.nested fun s => Lowering.constraint s label body.run
    (next r).run

/-- Each operation that may be carried out, in the scope or below it, is one of `P`. -/
def Uses (P : Operation → Prop) : Computation → Prop
  | result _ | abort _ => True
  | operate o next => P o ∧ ∀ r, (next r).Uses P
  | inspect next => ∀ w, (next w).Uses P
  | lambda _ body next => body.Uses P ∧ ∀ r, (next r).Uses P
  | function _ _ body next => body.Uses P ∧ ∀ r, (next r).Uses P
  | constraint _ body next => body.Uses P ∧ ∀ r, (next r).Uses P

/-- A lowering to a function of this name may take place, in the scope or below it. -/
def Lowers (f : String) : Computation → Prop
  | result _ | abort _ => False
  | operate _ next => ∃ r, (next r).Lowers f
  | inspect next => ∃ w, (next w).Lowers f
  | lambda _ body next => body.Lowers f ∨ ∃ r, (next r).Lowers f
  | function name _ body next => name = f ∨ body.Lowers f ∨ ∃ r, (next r).Lowers f
  | constraint _ body next => body.Lowers f ∨ ∃ r, (next r).Lowers f

/-- A lowering to a function of this name may take place within one to another function. -/
def Nests (f : String) : Computation → Prop
  | result _ | abort _ => False
  | operate _ next => ∃ r, (next r).Nests f
  | inspect next => ∃ w, (next w).Nests f
  | lambda _ body next => body.Nests f ∨ ∃ r, (next r).Nests f
  | function _ _ body next => body.Lowers f ∨ ∃ r, (next r).Nests f
  | constraint _ body next => body.Nests f ∨ ∃ r, (next r).Nests f

theorem Nests.lowers {f : String} {c : Computation} (h : c.Nests f) : c.Lowers f := by
  induction c with
  | result v | abort e => exact h
  | operate o next ih | inspect next ih =>
    obtain ⟨r, hr⟩ := h
    exact ⟨r, ih r hr⟩
  | lambda k body next ihb ih | constraint label body next ihb ih =>
    rcases h with h | ⟨r, hr⟩
    · exact .inl (ihb h)
    · exact .inr ⟨r, ih r hr⟩
  | function name k body next ihb ih =>
    rcases h with h | ⟨r, hr⟩
    · exact .inr (.inl h)
    · exact .inr (.inr ⟨r, ih r hr⟩)

end Computation

/-- After a step that was tried the computation ends, or goes on in the workspace that it left. -/
theorem Work.attempt_bind {α β : Type} {x : Work α} {f : Except ValueError α → Work β}
    {w : Workspace} {Q : Workspace → Prop} (hend : Q (outcome x w).2)
    (hnext : ∀ r, Q (outcome (f r) (outcome x w).2).2) :
    Q (outcome (attempt x >>= f) w).2 := by
  obtain ⟨r, hr⟩ : ∃ r, outcome (attempt x) w = (r, (outcome x w).2) := by
    change ∃ r, Work.attempt x w = _
    unfold attempt
    rcases outcome x w with ⟨(e | v) | a, w'⟩ <;> exact ⟨_, rfl⟩
  rw [outcome_bind, hr]
  cases r with
  | error e => exact hend
  | ok r => exact hnext r

namespace Lowering

section Rules

variable {α β : Type} {s : Session}

/-- From the session `s`, the lowering ends with a result and a session that satisfy `P`. -/
def Ensures (x : LowerT Id α) (s : Session)
    (P : Except (Fault LowerError) α → Session → Prop) : Prop :=
  P (x.run.run s).1 (x.run.run s).2

variable {x : LowerT Id α} {P P' : Except (Fault LowerError) α → Session → Prop}
  {Q : Except (Fault LowerError) β → Session → Prop}

theorem Ensures.mono (h : Ensures x s P) (hP : ∀ r t, P r t → P' r t) : Ensures x s P' := hP _ _ h

theorem ensures_pure {a : α} (h : P (.ok a) s) : Ensures (pure a) s P := h

theorem ensures_throw {f : Fault LowerError} (h : P (.error f) s) : Ensures (throw f) s P := h

theorem ensures_modify {f : Session → Session}
    {P : Except (Fault LowerError) PUnit → Session → Prop} (h : P (.ok ⟨⟩) (f s)) :
    Ensures (modify f) s P := h

theorem ensures_ofExcept {ε : Type} {fault : ε → Fault LowerError} {r : Except ε α}
    (hok : ∀ a, r = .ok a → P (.ok a) s) (herr : ∀ e, r = .error e → P (.error (fault e)) s) :
    Ensures (ofExcept fault r) s P := by
  cases r with
  | ok a => exact hok a rfl
  | error e => exact herr e rfl

theorem ensures_bind {f : α → LowerT Id β}
    (h : Ensures x s fun r t => match r with
      | .ok a => Ensures (f a) t Q
      | .error e => Q (.error e) t) : Ensures (x >>= f) s Q := by
  unfold Ensures at h ⊢
  rw [ExceptT.run_bind, StateT.run_bind]
  rcases hx : x.run.run s with ⟨_ | a, t⟩ <;> rw [hx] at h
  · exact h
  · exact h

theorem ensures_get_bind {f : Session → LowerT Id β} (h : Ensures (f s) s Q) :
    Ensures (get >>= f) s Q := h

theorem ensures_tryCatch {handle : Fault LowerError → LowerT Id α}
    (h : Ensures x s fun r t => match r with
      | .ok a => P (.ok a) t
      | .error e => Ensures (handle e) t P) : Ensures (tryCatch x handle) s P := by
  have hrun : (tryCatch x handle).run.run s =
      match x.run.run s with
      | (.ok a, t) => (.ok a, t)
      | (.error e, t) => (handle e).run.run t := by
    simp only [tryCatch, tryCatchThe, MonadExceptOf.tryCatch, ExceptT.tryCatch, ExceptT.run_mk,
      StateT.run_bind]
    change (x.run.run s >>= _ : Id _) = _
    rcases x.run.run s with ⟨_ | a, t⟩ <;> rfl
  unfold Ensures at h ⊢
  rw [hrun]
  rcases hx : x.run.run s with ⟨_ | a, t⟩ <;> rw [hx] at h
  · exact h
  · exact h

/-- After a lowering the computation ends, or goes on in the session that the lowering left. -/
theorem Ensures.nested {x : Scope → LowerT Id α} {f : Except LowerError α → Work β}
    {w : Workspace} {R : Workspace → Prop} (h : Ensures (x w.scope) w.session P)
    (hend : ∀ r t, P r t → R ⟨t, w.scope⟩)
    (hnext : ∀ r r' t, P r t → R (outcome (f r') ⟨t, w.scope⟩).2) :
    R (outcome (Lowering.nested x >>= f) w).2 := by
  obtain ⟨r, hr⟩ : ∃ r, outcome (Lowering.nested x) w =
      (r, ⟨((x w.scope).run.run w.session).2, w.scope⟩) := by
    change ∃ r, ((x w.scope).run.run w.session >>= _ : Id _) = _
    rcases (x w.scope).run.run w.session with ⟨(_ | _) | _, _⟩ <;> exact ⟨_, rfl⟩
  rw [outcome_bind, hr]
  cases r with
  | error e => exact hend _ _ h
  | ok r => exact hnext _ r _ h

end Rules

section Trace

variable {s : Session} {parent : Scope} {purpose : Purpose} {context : String} {expected : Kind}

/-- The computation with its result made an output, as a lowering runs it. -/
def replayed {m : Type → Type} [Monad m] (computation : WorkT m Value) : WorkT m NodeId := do
  let out ← computation
  Work.build (Build.addOutput out)

theorem ensures_fork {P : Except (Fault LowerError) Scope → Session → Prop}
    (hrefused : ∀ e, s.fork parent purpose = .error e → P (.error (.error e)) s)
    (hfork : ∀ child s', s.fork parent purpose = .ok (child, s') → P (.ok child) s') :
    Ensures (fork parent purpose) s P := by
  refine ensures_get_bind ?_
  rcases h : s.fork parent purpose with e | ⟨child, s'⟩
  · exact hrefused e h
  · exact hfork child s' h

/-- The replay leaves the session of the computation, and its scope is the trace. -/
theorem ensures_replay {child : Scope} {computation : Work Value}
    {P : Except (Fault LowerError) Trace → Session → Prop} {w : Workspace}
    (hw : (outcome (replayed computation) ⟨s, child⟩).2 = w)
    (hok : P (.ok w.scope.finish) w.session) (herr : ∀ e, P (.error e) w.session) :
    Ensures (replay child context computation) s P := by
  obtain ⟨r, hrun, hr⟩ : ∃ r, (replay child context computation).run.run s = (r, w.session) ∧
      (r = .ok w.scope.finish ∨ ∃ e, r = .error e) := by
    subst hw
    change ∃ r, (outcome (replayed computation) ⟨s, child⟩ >>= _ : Id _) = _ ∧ _
    rcases outcome (replayed computation) ⟨s, child⟩ with ⟨(_ | _) | _, _⟩
    · exact ⟨_, rfl, .inr ⟨_, rfl⟩⟩
    · exact ⟨_, rfl, .inr ⟨_, rfl⟩⟩
    · exact ⟨_, rfl, .inl rfl⟩
  unfold Ensures
  rw [hrun]
  rcases hr with rfl | ⟨e, rfl⟩
  · exact hok
  · exact herr e

/-- A lowering's trace is a valid one of what the computation leaves in the child. -/
theorem ensures_trace {computation : Work Value}
    {P : Except (Fault LowerError) ValidTrace → Session → Prop}
    (hrefused : ∀ e, s.fork parent purpose = .error e → P (.error (.error e)) s)
    (hfork : ∀ child s', s.fork parent purpose = .ok (child, s') →
      ∀ w, (outcome (replayed computation) ⟨s', child⟩).2 = w →
        (∀ e, P (.error e) w.session) ∧
        ∀ t, w.scope.finish.validate context expected = .ok t → P (.ok t) w.session) :
    Ensures (trace parent purpose context expected computation) s P := by
  refine ensures_bind (ensures_fork hrefused fun child s' h => ensures_bind ?_)
  obtain ⟨herr, hok⟩ := hfork child s' h _ rfl
  exact ensures_replay rfl (ensures_ofExcept hok fun e _ => herr _) fun e => herr e

end Trace

end Lowering

end SmtLowering
