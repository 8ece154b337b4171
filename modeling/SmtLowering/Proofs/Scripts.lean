import SmtLowering.Proofs.Failures

/-!
# Scripts

A computation may hold more than its own scope: forks that were opened before, and the scopes whose
lowering it is a part of. A `Script` is such a computation. It works in its own scope or in one that
it holds, forks any of them, and lowers further scripts into any of them (`Place`), so a registry
may change while a lowering that reads it is under way. What a caller keeps beside the workspace is
a `Caller`; it also notes what was seen on the way, and which names were lowered to again while a
lowering of the same name into the same registry was not done.
-/

namespace SmtLowering

/-- A scope that a script can name. -/
inductive Place
  | here
  /-- The scope that the `k`th lowering under way goes to, the innermost one first. -/
  | outer (k : Nat)
  /-- The `k`th fork that was opened and is held. -/
  | held (k : Nat)

inductive Script
  | result (v : Value)
  | abort (e : ValueError)
  | operate (o : Operation) (next : Except ValueError (Option Value) → Script)
  /-- An operation in a fork that is held. -/
  | visit (k : Nat) (o : Operation) (next : Except ValueError (Option Value) → Script)
  /-- Looks at a scope and what its registries hold. -/
  | inspect (p : Place) (next : Workspace → Script)
  /-- Opens a fork and holds it. -/
  | fork (p : Place) (purpose : Purpose) (next : Except LowerError Nat → Script)
  | lower (p : Place) (t : Target) (body : Script) (next : Except LowerError t.Result → Script)

/-- What a script has beside the workspace. -/
structure Caller where
  held : List Scope
  /-- The names that were lowered to while a lowering to them was under way in the same registry. -/
  overlaps : List String
  /-- What was looked at, with the overlaps up to then. -/
  met : List (Workspace × List String)

def Caller.empty : Caller := ⟨[], [], []⟩

/-- The lowerings under way, the innermost one first. -/
abbrev Frames := List (Scope × Target)

/-- The names that lowerings under way will define in the registry of the scope. -/
def Frames.pending (frames : Frames) (s : Scope) : List String :=
  (frames.filter fun (parent, _) =>
    parent.branches.definitions = s.branches.definitions).filterMap (·.2.name?)

theorem Frames.mem_pending {frames : Frames} {s : Scope} {f : String} :
    f ∈ frames.pending s ↔ ∃ p ∈ frames,
      p.1.branches.definitions = s.branches.definitions ∧ p.2.name? = some f := by
  simp only [pending, List.mem_filterMap, List.mem_filter, decide_eq_true_eq, and_assoc]

namespace Script

abbrev ScriptT := WorkT (StateM Caller)

section Steps

variable (frames : Frames)

def place (p : Place) : ScriptT Scope := fun w σ =>
  let scope? :=
    match p with
    | .here => some w.scope
    | .outer k => (frames[k]?).map Prod.fst
    | .held k => σ.held[k]?
  match scope? with
  | some s => ((.ok s, w), σ)
  | none => ((.error (.error (.user "no such scope")), w), σ)

def visitStep (k : Nat) (o : Operation) : ScriptT (Except ValueError (Option Value)) := fun w σ =>
  match σ.held[k]? with
  | some s =>
    let (r, w') := outcome (Work.attempt o.run) ⟨w.session, s⟩
    ((r, ⟨w'.session, w.scope⟩), { σ with held := σ.held.set k w'.scope })
  | none => ((.error (.error (.user "no such scope")), w), σ)

def look (s : Scope) : ScriptT Workspace := fun w σ =>
  ((.ok ⟨w.session, s⟩, w), { σ with met := σ.met ++ [(⟨w.session, s⟩, σ.overlaps)] })

def hold (s : Scope) (purpose : Purpose) : ScriptT (Except LowerError Nat) := fun w σ =>
  match w.session.fork s purpose with
  | .ok (child, session) =>
    ((.ok (.ok σ.held.length), ⟨session, w.scope⟩), { σ with held := σ.held ++ [child] })
  | .error e => ((.ok (.error e), w), σ)

/-- Notes the name that is lowered to if a lowering to it is under way. -/
def note (s : Scope) (t : Target) : ScriptT Unit := fun w σ =>
  match t.name?.filter (· ∈ frames.pending s) with
  | some name => ((.ok (), w), { σ with overlaps := name :: σ.overlaps })
  | none => ((.ok (), w), σ)

end Steps

def run : Script → Frames → ScriptT Value
  | result v, _ => pure v
  | abort e, _ => throw (.error e)
  | operate o next, frames => do
    let r ← Work.lift (Work.attempt o.run)
    (next r).run frames
  | visit k o next, frames => do
    let r ← visitStep k o
    (next r).run frames
  | inspect p next, frames => do
    let s ← place frames p
    let w ← look s
    (next w).run frames
  | fork p purpose next, frames => do
    let s ← place frames p
    let r ← hold s purpose
    (next r).run frames
  | lower p t body next, frames => do
    let s ← place frames p
    note frames s t
    let r ← Lowering.nested fun _ => t.lower s (body.run ((s, t) :: frames))
    (next r).run frames

/-- The script registers no definition but through lowerings. -/
def Unregistered : Script → Prop
  | result _ | abort _ => True
  | operate o next | visit _ o next => o.registers = false ∧ ∀ r, (next r).Unregistered
  | inspect _ next => ∀ w, (next w).Unregistered
  | fork _ _ next => ∀ r, (next r).Unregistered
  | lower _ _ body next => body.Unregistered ∧ ∀ r, (next r).Unregistered

/-- The script lowers only into the scope that it works in. -/
def Inward : Script → Prop
  | result _ | abort _ => True
  | operate _ next | visit _ _ next => ∀ r, (next r).Inward
  | inspect _ next => ∀ w, (next w).Inward
  | fork _ _ next => ∀ r, (next r).Inward
  | lower p _ body next => p = .here ∧ body.Inward ∧ ∀ r, (next r).Inward

/-- What the caller has at the end of a session that is the script. -/
def session (c : Script) (config : Config) : Caller :=
  (c.run [] (.new config) .empty).2

section Sequence

variable {α β : Type} (w : Workspace) (σ : Caller)

theorem bind_run (x : ScriptT α) (f : α → ScriptT β) :
    (x >>= f) w σ =
      match x w σ with
      | ((.ok a, w), σ) => f a w σ
      | ((.error e, w), σ) => ((.error e, w), σ) := by
  change (advance (x >>= f) w).run σ = _
  rw [advance_bind, StateT.run_bind]
  change (x w σ >>= _ : Id _) = _
  rcases x w σ with ⟨⟨_ | _, _⟩, _⟩ <;> rfl

theorem lift_run (x : Work α) : (Work.lift x : ScriptT α) w σ = (outcome x w, σ) := rfl

variable {w σ} {s : Scope} {t : Target} {x : ScriptT Value}

theorem nested_refused {e : LowerError} (ha : t.start ⟨w.session, s⟩ = .error e) :
    (Lowering.nested fun _ => t.lower s x : ScriptT (Except LowerError t.Result)) w σ =
      ((.ok (.error e), w), σ) := by
  have hrun := t.lower_run x ⟨w.session, s⟩
  rw [ha] at hrun
  change (advance (t.lower s x) w.session >>= _ : StateM Caller _) σ = _
  rw [hrun]
  rfl

/-- A lowering into a scope runs its script in the fork, and leaves the session that it concludes
with. -/
theorem nested_run {child : Scope} {session : Session}
    (ha : t.start ⟨w.session, s⟩ = .ok (child, session)) {r : Except (Fault ValueError) NodeId}
    {c : Workspace} {σ' : Caller}
    (hx : Lowering.replayed x ⟨session, child⟩ σ = ((r, c), σ')) :
    ∃ r', (Lowering.nested fun _ => t.lower s x : ScriptT (Except LowerError t.Result)) w σ =
      ((r', ⟨(t.conclude ⟨w.session, s⟩ r c).2, w.scope⟩), σ') := by
  have hrun := t.lower_run x ⟨w.session, s⟩
  rw [ha] at hrun
  have hx : advance (Lowering.replayed x) ⟨session, child⟩ σ = ((r, c), σ') := hx
  have hbind {α β : Type} (y : StateM Caller α) (f : α → StateM Caller β) :
      (y >>= f) σ = f (y σ).1 (y σ).2 := rfl
  change ∃ r', (advance (t.lower s x) w.session >>= _ : StateM Caller _) σ = ((r', _), σ')
  simp only [hrun, bind_assoc, pure_bind]
  rw [hbind, hx]
  simp only
  rcases t.conclude ⟨w.session, s⟩ r c with ⟨(_ | _) | _, _⟩ <;> exact ⟨_, rfl⟩

end Sequence

end Script

end SmtLowering
