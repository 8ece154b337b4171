import SmtLowering.Proofs.Plan

/-!
# Operations

`Operation` are the operations of a scope, with those on the registries that it uses. An operation
changes the scope and the session independently: `Operation.scopeStep` is what it does in the
scope, given the session it meets, and `Operation.sessionAfter` is the session it leaves
(`Operation.outcome_run`).
-/

namespace SmtLowering

inductive Operation
  | primitive (p : Primitive)
  | all (vs : List Value)
  | input (role : InputRole) (name : String) (kind : Kind)
  | apply (name : String) (result : Kind) (args : List Value)
  | lookup (entries : List Value) (index fallback : Value)
  | newArray (name : String) (key value : Kind)
  | materialize (v : Value)
  | observe (label : String) (v : Value)
  | constrain (label : String) (v : Value)
  | assert (label : String) (v : Value)
  | addOutput (v : Value)
  | addCodeSegment (function : String) (lines : List String)
  | registerDefinition (sig : Signature) (d : Declaration)
  | addAxiom (text : String)
  | forgetUninterpreted (name : String)

namespace Workspace

/-- The signature that an application of `name` has to agree with. -/
def signature? (w : Workspace) (name : String) : Option Signature :=
  (w.userFunctions.find? name).or (w.uninterpreted.find? name)

end Workspace

namespace Build

/-- The table of the entries under a number, and its application to an index. -/
def tabulate (id : Nat) (entries : List Value) (index fallback : Value) : Build Value := do
  let nodes ← entries.mapM materialize
  modify fun s => { s with tables := s.tables ++ [⟨id, index.kind, fallback.kind, nodes⟩] }
  let ni ← materialize index
  let nd ← materialize fallback
  intern ⟨.table id, index.kind, [ni, nd]⟩ fallback.kind

/-- The declaration of an array under a number, and the reference to it. -/
def declareArray (id : Nat) (name : String) (key value : Kind) : Build Value := do
  modify fun s => { s with arrays := s.arrays ++ [⟨id, name, key, value⟩] }
  intern ⟨.arrayRef id, .array key value, []⟩ (.array key value)

/-- The node of an application, unless a known signature of the name is another one. -/
def applyKnown (known : Option Signature) (name : String) (result : Kind) (args : List Value) :
    Build Value :=
  let sig : Signature := ⟨args.map Value.kind, result⟩
  match known with
  | some declared =>
    if declared = sig then
      (Plan.node (.apply name) (Work.applicationDomain result args) args result).exec
    else fail (.signatureMismatch name declared sig)
  | none => (Plan.node (.apply name) (Work.applicationDomain result args) args result).exec

/-- A look-up, the table having the number `id` if one is needed. -/
def lookupAt (id : Nat) (entries : List Value) (index fallback : Value) : Build Value := do
  require "lookup" index (index.kind.isBitVec || index.kind = .int)
  match entries.find? (·.kind ≠ fallback.kind) with
  | some bad => fail (.tableKind entries.length bad.kind fallback.kind)
  | none =>
    match index.asInt? with
    | some i => pure (if 0 ≤ i then entries.getD i.toNat fallback else fallback)
    | none => tabulate id entries index fallback

/-- What is at an index is an entry or the fallback. -/
theorem answer_of_forall {α : Type} {P : α → Prop} {xs : List α} {d : α} (h : ∀ x ∈ xs, P x)
    (hd : P d) (i : Int) : P (if 0 ≤ i then xs.getD i.toNat d else d) := by
  split_ifs
  · rw [List.getD_eq_getElem?_getD]
    rcases hm : xs[i.toNat]? with _ | x
    · exact hd
    · exact h x (List.mem_of_getElem? hm)
  · exact hd

end Build

namespace Operation

/-- The operation as a step, with the value that it issues, if any. -/
def run : Operation → Work (Option Value)
  | .primitive p => do return some (← Work.build p.build)
  | .all vs => do return some (← Work.build (Build.all vs))
  | .input role name kind => do return some (← Work.build (Build.input role name kind))
  | .apply name result args => do return some (← Work.apply name result args)
  | .lookup entries index fallback => do return some (← Work.lookup entries index fallback)
  | .newArray name key value => do return some (← Work.newArray name key value)
  | .materialize v => do
    let _ ← Work.build (Build.materialize v)
    return none
  | .observe label v => do
    Work.build (Build.observe label v)
    return none
  | .constrain label v => do
    Work.build (Build.constrain label v)
    return none
  | .assert label v => do
    Work.build (Build.assert label v)
    return none
  | .addOutput v => do
    let _ ← Work.build (Build.addOutput v)
    return none
  | .addCodeSegment function lines => do
    Work.build (Build.addCodeSegment function lines)
    return none
  | .registerDefinition sig d => do
    modify (·.registerDefinition sig d)
    return none
  | .addAxiom text => do
    modify (·.addAxiom text)
    return none
  | .forgetUninterpreted name => do
    modify (·.forgetUninterpreted name)
    return none

def operands : Operation → List Value
  | .primitive p => p.operands
  | .all vs => vs
  | .apply _ _ args => args
  | .lookup entries index fallback => entries ++ [index, fallback]
  | .materialize v | .observe _ v | .constrain _ v | .assert _ v | .addOutput v => [v]
  | .input .. | .newArray .. | .addCodeSegment .. | .registerDefinition .. => []
  | .addAxiom _ | .forgetUninterpreted _ => []

/-- What the operation does in the scope, given the session that it meets. -/
def scopeStep (w : Workspace) : Operation → Build (Option Value)
  | .primitive p => some <$> p.plan.exec
  | .all vs => some <$> Build.all vs
  | .input role name kind => some <$> Build.input role name kind
  | .apply name result args => some <$> Build.applyKnown (w.signature? name) name result args
  | .lookup entries index fallback =>
    some <$> Build.lookupAt w.takeTableId.1 entries index fallback
  | .newArray name key value => some <$> Build.declareArray w.takeArrayId.1 name key value
  | .materialize v => (fun _ => none) <$> Build.materialize v
  | .observe label v => (fun _ => none) <$> Build.observe label v
  | .constrain label v => (fun _ => none) <$> Build.constrain label v
  | .assert label v => (fun _ => none) <$> Build.assert label v
  | .addOutput v => (fun _ => none) <$> Build.addOutput v
  | .addCodeSegment function lines => (fun _ => none) <$> Build.addCodeSegment function lines
  | .registerDefinition .. | .addAxiom _ | .forgetUninterpreted _ => pure none

/-- A look-up that cannot be answered from its operands. -/
def needsTable (entries : List Value) (index fallback : Value) : Bool :=
  (index.kind.isBitVec || index.kind = .int) &&
    (entries.find? (·.kind ≠ fallback.kind)).isNone && index.asInt?.isNone

/-- The session that the operation leaves. -/
def sessionAfter (w : Workspace) : Operation → Session
  | .apply name result args =>
    match w.signature? name with
    | some _ => w.session
    | none => (w.mapUninterpreted (·.insert name ⟨args.map Value.kind, result⟩)).session
  | .lookup entries index fallback =>
    if needsTable entries index fallback then w.takeTableId.2.session else w.session
  | .newArray .. => w.takeArrayId.2.session
  | .registerDefinition sig d => (w.registerDefinition sig d).session
  | .addAxiom text => (w.addAxiom text).session
  | .forgetUninterpreted name => (w.forgetUninterpreted name).session
  | _ => w.session

section Run

variable (w : Workspace)

theorem outcome_map {σ α β : Type} (f : α → β) (m : ExceptT (Fault ValueError) (StateM σ) α)
    (s : σ) : outcome (f <$> m) s = ((outcome m s).1.map f, (outcome m s).2) := by
  rw [map_eq_pure_bind, outcome_bind]
  rcases outcome m s with ⟨_ | _, _⟩ <;> rfl

theorem outcome_map_build {α β : Type} (f : α → β) (m : Build α) :
    outcome (f <$> Work.build m : Work β) w =
      ((outcome (f <$> m) w.scope).1, ⟨w.session, (outcome (f <$> m) w.scope).2⟩) := by
  rw [outcome_map, outcome_map, outcome_build]

theorem outcome_apply (name : String) (result : Kind) (args : List Value) :
    outcome (Work.apply name result args) w =
      ((outcome (Build.applyKnown (w.signature? name) name result args) w.scope).1,
        ⟨sessionAfter w (.apply name result args),
          (outcome (Build.applyKnown (w.signature? name) name result args) w.scope).2⟩) := by
  simp only [Work.apply, Work.agree, outcome_bind, outcome_get, Build.applyKnown, sessionAfter]
  rcases hs : w.signature? name with _ | declared <;> simp only [Workspace.signature?] at hs
  · rw [hs]
    rfl
  · rw [hs]
    simp only
    split_ifs with h
    · rfl
    · rfl

theorem outcome_lookup (entries : List Value) (index fallback : Value) :
    outcome (Work.lookup entries index fallback) w =
      ((outcome (Build.lookupAt w.takeTableId.1 entries index fallback) w.scope).1,
        ⟨sessionAfter w (.lookup entries index fallback),
          (outcome (Build.lookupAt w.takeTableId.1 entries index fallback) w.scope).2⟩) := by
  simp only [sessionAfter, needsTable]
  by_cases hk : (index.kind.isBitVec || index.kind = .int) = true
  · simp only [Work.lookup, Build.lookupAt, Build.require, hk, if_true, pure_bind, Bool.true_and]
    generalize entries.find? _ = bad?
    cases bad? with
    | some bad => rfl
    | none =>
      cases index.asInt? with
      | some i => rfl
      | none => rfl
  · simp only [Work.lookup, Build.lookupAt, Build.require, hk, Bool.false_and]
    rfl

theorem outcome_newArray (name : String) (key value : Kind) :
    outcome (Work.newArray name key value) w =
      ((outcome (Build.declareArray w.takeArrayId.1 name key value) w.scope).1,
        ⟨sessionAfter w (.newArray name key value),
          (outcome (Build.declareArray w.takeArrayId.1 name key value) w.scope).2⟩) := rfl

/-- In the scope an operation is `scopeStep`, in the session it leads to `sessionAfter`. -/
theorem outcome_run (o : Operation) :
    outcome o.run w =
      ((outcome (o.scopeStep w) w.scope).1,
        ⟨o.sessionAfter w, (outcome (o.scopeStep w) w.scope).2⟩) := by
  cases o with
  | primitive p =>
    simp only [run, scopeStep, ← p.build_eq]
    exact outcome_map_build w some p.build
  | all vs => exact outcome_map_build w some (Build.all vs)
  | input role name kind => exact outcome_map_build w some (Build.input role name kind)
  | apply name result args =>
    simp only [run, scopeStep, bind_pure_comp, outcome_map, outcome_apply]
  | lookup entries index fallback =>
    simp only [run, scopeStep, bind_pure_comp, outcome_map, outcome_lookup]
  | newArray name key value =>
    simp only [run, scopeStep, bind_pure_comp, outcome_map, outcome_newArray]
  | materialize v => exact outcome_map_build w (fun _ => none) (Build.materialize v)
  | observe label v => exact outcome_map_build w (fun _ => none) (Build.observe label v)
  | constrain label v => exact outcome_map_build w (fun _ => none) (Build.constrain label v)
  | assert label v => exact outcome_map_build w (fun _ => none) (Build.assert label v)
  | addOutput v => exact outcome_map_build w (fun _ => none) (Build.addOutput v)
  | addCodeSegment function lines =>
    exact outcome_map_build w (fun _ => none) (Build.addCodeSegment function lines)
  | registerDefinition sig d => rfl
  | addAxiom text => rfl
  | forgetUninterpreted name => rfl

end Run

end Operation

end SmtLowering
