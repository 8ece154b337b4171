import SmtLowering.Lowering.Fork
import SmtLowering.Proofs.Operation

/-!
# Runs of operations

A world holds the scopes of a session and every value that one of them has issued. It moves by
events: a scope is opened at the outermost level, a scope is forked, an operation is carried out in
a scope. Operands are literals or values issued before, by whichever scope. `World.Reachable` are
the worlds that such events lead to.
-/

namespace SmtLowering

structure World where
  session : Session
  scopes : List Scope
  issued : List Value

inductive Event
  | start (config : Config)
  | fork (parent : Nat) (purpose : Purpose)
  | call (scope : Nat) (o : Operation)

namespace World

def empty : World := ⟨.empty, [], []⟩

/-- The value that an operation issued. -/
def newlyIssued : Except (Fault ValueError) (Option Value) → List Value
  | .ok (some v) => [v]
  | _ => []

/-- The session with a scope of the world at hand. -/
def workspace (w : World) (s : Scope) : Workspace := ⟨w.session, s⟩

/-- The world after an operation of its `i`th scope. -/
def put (w : World) (i : Nat) (r : Except (Fault ValueError) (Option Value) × Workspace) : World :=
  ⟨r.2.session, w.scopes.set i r.2.scope, w.issued ++ newlyIssued r.1⟩

/-- The world after an event. What names no scope, or is refused, changes nothing. -/
def next (w : World) : Event → World
  | .start config =>
    let (scope, session) := w.session.openScope config
    ⟨session, w.scopes ++ [scope], w.issued⟩
  | .fork parent purpose =>
    match w.scopes[parent]? with
    | none => w
    | some s =>
      match w.session.fork s purpose with
      | .ok (child, session) => ⟨session, w.scopes ++ [child], w.issued⟩
      | .error _ => w
  | .call i o =>
    match w.scopes[i]? with
    | none => w
    | some s => w.put i (outcome o.run (w.workspace s))

/-- The operands of the event are literals or values that were issued before. -/
def Supplies (w : World) : Event → Prop
  | .start _ | .fork .. => True
  | .call _ o => ∀ v ∈ o.operands, v.isConcrete ∨ v ∈ w.issued

/-- The worlds that events lead to. -/
inductive Reachable : World → Prop
  | empty : Reachable .empty
  | next {w : World} {e : Event} : Reachable w → w.Supplies e → Reachable (w.next e)

section Next

variable (w : World) {i : Nat} {s : Scope}

theorem next_call (o : Operation) (h : w.scopes[i]? = some s) :
    w.next (.call i o) =
      ⟨o.sessionAfter (w.workspace s),
        w.scopes.set i (outcome (o.scopeStep (w.workspace s)) s).2,
        w.issued ++ newlyIssued (outcome (o.scopeStep (w.workspace s)) s).1⟩ := by
  simp only [next, h, put, Operation.outcome_run]
  rfl

theorem next_call_none (o : Operation) (h : w.scopes[i]? = none) : w.next (.call i o) = w := by
  simp only [next, h]

theorem mem_newlyIssued {r : Except (Fault ValueError) (Option Value)} {v : Value}
    (h : v ∈ newlyIssued r) : r = .ok (some v) := by
  rcases r with _ | _ | u
  · simp [newlyIssued] at h
  · simp [newlyIssued] at h
  · rw [newlyIssued, List.mem_singleton] at h
    rw [h]

/-- A fork is a scope without nodes of its own, or it is refused. -/
theorem fork_cases (session : Session) (parent : Scope) (purpose : Purpose) :
    (∃ child after, session.fork parent purpose = .ok (child, after) ∧
      child = .blank session.scopes (parent.level + 1) parent.config child.branches ∧
      after.scopes = session.scopes + 1) ∨
    ∃ e, session.fork parent purpose = .error e := by
  unfold Session.fork
  split_ifs with h
  · exact .inr ⟨_, rfl⟩
  · refine .inl ⟨_, _, rfl, ?_, rfl⟩
    cases purpose <;> rfl

end Next

end World

/-- A fork has no nodes of its own, one level below its parent. -/
theorem Session.fork_blank {s s' : Session} {parent child : Scope} {purpose : Purpose}
    (h : s.fork parent purpose = .ok (child, s')) :
    child = .blank s.scopes (parent.level + 1) parent.config child.branches := by
  rcases World.fork_cases s parent purpose with ⟨_, _, hf, hb, -⟩ | ⟨e, he⟩
  · cases hf.symm.trans h
    exact hb
  · cases he.symm.trans h

end SmtLowering
