import Mathlib.Logic.Function.Basic
import SmtLowering.Proofs.Recorded
import SmtLowering.Proofs.Targets

/-!
# Runs that differ in names

A `Renaming` gives the scopes, nodes, tables and arrays of one run the names that they have in
another. A `Translation` also says which scope of the other run stands for a scope. It is lawful if
it respects each thing that a scope may record, taken alone; then it respects every operation: on
renamed operands, in the scope that stands for another, an operation ends as it does there but for
the names (`Translation.Lawful.mirrors_scopeStep`).

An operation asks an operand only for its kind and its literal, and whether it is equal to another
one, so its plan is renamed as a whole (`Renaming.plan_map`).
-/

namespace SmtLowering

/-- What a step gives, the value and the error each mapped. -/
def Except.mapBoth {α β δ ε : Type} (e : δ → ε) (a : α → β) : Except δ α → Except ε β
  | .ok x => .ok (a x)
  | .error y => .error (e y)

namespace Fault

def map {δ ε : Type} (f : δ → ε) : Fault δ → Fault ε
  | error e => error (f e)
  | violation v => violation v

end Fault

namespace Primitive

def map (g : Value → Value) : Primitive → Primitive
  | not a => not (g a)
  | and a b => and (g a) (g b)
  | or a b => or (g a) (g b)
  | xor a b => xor (g a) (g b)
  | implies a b => implies (g a) (g b)
  | ite c t e => ite (g c) (g t) (g e)
  | eq a b => eq (g a) (g b)
  | neq a b => neq (g a) (g b)
  | lt a b => lt (g a) (g b)
  | le a b => le (g a) (g b)
  | gt a b => gt (g a) (g b)
  | ge a b => ge (g a) (g b)
  | add a b => add (g a) (g b)
  | sub a b => sub (g a) (g b)
  | mul a b => mul (g a) (g b)
  | div a b => div (g a) (g b)
  | neg a => neg (g a)
  | zeroExtend a w => zeroExtend (g a) w
  | signExtend a w => signExtend (g a) w
  | extract a hi lo => extract (g a) hi lo
  | testBit a i => testBit (g a) i
  | signBit a => signBit (g a)
  | umulNoOverflow a b => umulNoOverflow (g a) (g b)
  | smulNoOverflow a b => smulNoOverflow (g a) (g b)
  | smulNoUnderflow a b => smulNoUnderflow (g a) (g b)
  | select a i => select (g a) (g i)

end Primitive

/-- The operation on other operands. -/
def Operation.map (g : Value → Value) : Operation → Operation
  | primitive p => primitive (p.map g)
  | all vs => all (vs.map g)
  | apply name result args => apply name result (args.map g)
  | lookup entries index fallback => lookup (entries.map g) (g index) (g fallback)
  | materialize v => materialize (g v)
  | observe label v => observe label (g v)
  | constrain label v => constrain label (g v)
  | assert label v => assert label (g v)
  | addOutput v => addOutput (g v)
  | o => o

/-- What a scope may record beside its nodes. -/
inductive Recording
  | table (t : Table)
  | array (a : ArrayDecl)
  | codeSegment (c : CodeSegment)
  | observable (l : Labelled)
  | constraint (l : Labelled)
  | assertion (l : Labelled)
  | output (n : NodeId)

namespace Scope

def record (s : Scope) : Recording → Scope
  | .table t => { s with tables := s.tables ++ [t] }
  | .array a => { s with arrays := s.arrays ++ [a] }
  | .codeSegment c => { s with codeSegments := s.codeSegments ++ [c] }
  | .observable l => { s with observables := s.observables ++ [l] }
  | .constraint l => { s with constraints := s.constraints ++ [l] }
  | .assertion l => { s with assertions := s.assertions ++ [l] }
  | .output n => { s with outputs := s.outputs ++ [n] }

theorem record_grows (s : Scope) (r : Recording) : s.Grows (s.record r) := by
  cases r with
  | table t => exact { Grows.refl s with tables := List.prefix_append _ _ }
  | array a => exact { Grows.refl s with arrays := List.prefix_append _ _ }
  | codeSegment c => exact { Grows.refl s with codeSegments := List.prefix_append _ _ }
  | observable l => exact { Grows.refl s with observables := List.prefix_append _ _ }
  | constraint l => exact { Grows.refl s with constraints := List.prefix_append _ _ }
  | assertion l => exact { Grows.refl s with assertions := List.prefix_append _ _ }
  | output n => exact { Grows.refl s with outputs := List.prefix_append _ _ }

end Scope

/-- The names, in another run, of scopes, of the nodes of each, of tables and of arrays. -/
structure Renaming where
  owner : Nat → Nat
  node : (owner : Nat) → NodeId → NodeId
  tableId : Nat → Nat
  arrayId : Nat → Nat

namespace Renaming

section Data

variable (ρ : Renaming)

def value : Value → Value
  | .concrete c => .concrete c
  | .symbolic n k number => .symbolic (ρ.node number n) k (ρ.owner number)

/-- The error names a foreign value and the two scopes. -/
def error : ValueError → ValueError
  | .foreignValue n number expected =>
    .foreignValue (ρ.node number n) (ρ.owner number) (ρ.owner expected)
  | e => e

def op : Op → Op
  | .table id => .table (ρ.tableId id)
  | .arrayRef id => .arrayRef (ρ.arrayId id)
  | op => op

def expr (e : Expr) : Expr := { e with op := ρ.op e.op }

def table (t : Table) : Table := { t with id := ρ.tableId t.id }

def array (a : ArrayDecl) : ArrayDecl := { a with id := ρ.arrayId a.id }

def recording : Recording → Recording
  | .table t => .table (ρ.table t)
  | .array a => .array (ρ.array a)
  | r => r

def plan : Plan → Plan
  | .give v => .give (ρ.value v)
  | .refuse f => .refuse (f.map ρ.error)
  | .node op domain vs k => .node op domain (vs.map ρ.value) k

/-- How a step ends, in the other run. -/
def result {α : Type} (g : α → α) :
    Except (Fault ValueError) α → Except (Fault ValueError) α :=
  Except.mapBoth (Fault.map ρ.error) g

end Data

section Values

variable (ρ : Renaming)

/-- Different scopes and different nodes of one have different names. -/
structure Faithful : Prop where
  owner : Function.Injective ρ.owner
  node (number : Nat) : Function.Injective (ρ.node number)

@[simp]
theorem kind_value (v : Value) : (ρ.value v).kind = v.kind := by cases v <;> rfl

@[simp]
theorem asBool?_value (v : Value) : (ρ.value v).asBool? = v.asBool? := by cases v <;> rfl

@[simp]
theorem asInt?_value (v : Value) : (ρ.value v).asInt? = v.asInt? := by cases v <;> rfl

variable {ρ}

theorem Faithful.value_inj (h : ρ.Faithful) {v u : Value} : ρ.value v = ρ.value u ↔ v = u := by
  refine ⟨fun he => ?_, congrArg _⟩
  cases v with
  | concrete c =>
    cases u with
    | concrete d => exact he
    | symbolic n k number => cases he
  | symbolic n k number =>
    cases u with
    | concrete d => cases he
    | symbolic m l other =>
      simp only [value, Value.symbolic.injEq] at he
      obtain ⟨hn, rfl, ho⟩ := he
      obtain rfl := h.owner ho
      rw [h.node number hn]

theorem Faithful.equal_value (h : ρ.Faithful) (v u : Value) :
    (ρ.value v).equal (ρ.value u) = v.equal u := by
  cases v with
  | concrete c => cases u <;> rfl
  | symbolic n k number =>
    cases u with
    | concrete d => rfl
    | symbolic m l other => exact decide_eq_decide.2 h.value_inj

end Values

section Plans

variable (ρ : Renaming)

theorem plan_sameKind (op : String) (a b : Value) (p : Plan) :
    ρ.plan (.sameKind op a b p) = .sameKind op (ρ.value a) (ρ.value b) (ρ.plan p) := by
  simp only [Plan.sameKind, kind_value]
  split_ifs <;> rfl

theorem plan_require (op : String) (a : Value) (ok : Bool) (p : Plan) :
    ρ.plan (.require op a ok p) = .require op (ρ.value a) ok (ρ.plan p) := by
  simp only [Plan.require, kind_value]
  split_ifs <;> rfl

theorem plan_wordWidth (op : String) (a : Value) (p : Nat → Plan) :
    ρ.plan (.wordWidth op a p) = .wordWidth op (ρ.value a) fun w => ρ.plan (p w) := by
  simp only [Plan.wordWidth, kind_value]
  cases a.kind.width? <;> rfl

theorem plan_unary (op : Op) (a : Value) (k : Kind) :
    ρ.plan (.unary op a k) = .unary op (ρ.value a) k := by
  cases a with
  | concrete c =>
    simp only [Plan.unary, Build.foldUnary?, value]
    cases foldUnary op c k <;> rfl
  | symbolic n l number => rfl

theorem plan_binary (op : Op) (a b : Value) (k : Kind) :
    ρ.plan (.binary op a b k) = .binary op (ρ.value a) (ρ.value b) k := by
  cases a with
  | concrete c =>
    cases b with
    | concrete d =>
      simp only [Plan.binary, Build.foldBinary?, value]
      cases foldBinary op c d k <;> rfl
    | symbolic n l number => rfl
  | symbolic n l number => cases b <;> rfl

theorem plan_bits (op : String) (a : Value) (p : Plan) :
    ρ.plan (.bits op a p) = .bits op (ρ.value a) (ρ.plan p) := by
  simp only [Plan.bits, plan_require, kind_value]

theorem plan_not (a : Value) : ρ.plan (.not a) = .not (ρ.value a) := by
  simp only [Plan.not, plan_bits, plan_unary, kind_value]

theorem plan_testBit (a : Value) (i : Nat) : ρ.plan (.testBit a i) = .testBit (ρ.value a) i := by
  simp only [Plan.testBit, plan_wordWidth, plan_require, plan_unary]

/-- On renamed operands an operation has the renamed plan. -/
theorem plan_map {ρ : Renaming} (h : ρ.Faithful) (p : Primitive) :
    (p.map ρ.value).plan = ρ.plan p.plan := by
  cases p with
  | not a => exact (ρ.plan_not a).symm
  | and a b | or a b | xor a b =>
    simp only [Primitive.map, Primitive.plan, Plan.and, Plan.or, Plan.xor, plan_sameKind, plan_bits,
      asBool?_value, kind_value]
    rcases a.asBool? with _ | _ | _ <;> rcases b.asBool? with _ | _ | _ <;>
      simp only [plan_binary, plan_not] <;> rfl
  | ite c t e =>
    simp only [Primitive.map, Primitive.plan, Plan.ite, plan_sameKind, plan_require, asBool?_value,
      kind_value, h.equal_value]
    rcases c.asBool? with _ | _ | _
    · split_ifs <;> rfl
    · rfl
    · rfl
  | zeroExtend a w | signExtend a w =>
    simp only [Primitive.map, Primitive.plan, Plan.extend, plan_wordWidth, kind_value]
    congr
    funext source
    split_ifs
    · rfl
    · rfl
    · exact (ρ.plan_unary _ a _).symm
  | extract a hi lo =>
    simp only [Primitive.map, Primitive.plan, Plan.extract, plan_wordWidth, plan_require,
      kind_value]
    congr
    funext source
    split_ifs
    · rfl
    · rw [plan_unary]
  | signBit a =>
    simp only [Primitive.map, Primitive.plan, Plan.signBit, plan_wordWidth]
    congr
    funext w
    cases w with
    | zero => rfl
    | succ w => exact (ρ.plan_testBit a w).symm
  | testBit a i => exact (ρ.plan_testBit a i).symm
  | select a i =>
    simp only [Primitive.map, Primitive.plan, Plan.select, kind_value]
    cases a.kind with
    | array key value =>
      simp only
      split_ifs
      · exact (ρ.plan_binary _ a i _).symm
      · rfl
    | _ => rfl
  | _ =>
    simp only [Primitive.map, Primitive.plan, Plan.implies, Plan.equality, Plan.ordering,
      Plan.arith, Plan.neg, Plan.native, plan_sameKind, plan_require, plan_wordWidth, plan_binary,
      plan_unary, kind_value]

theorem map_kind_value (vs : List Value) : (vs.map ρ.value).map Value.kind = vs.map Value.kind := by
  simp

theorem applicationDomain_map (result : Kind) (vs : List Value) :
    Work.applicationDomain result (vs.map ρ.value) = Work.applicationDomain result vs := by
  cases vs with
  | nil => rfl
  | cons v vs => exact ρ.kind_value v

/-- The first entry of another kind is where it was. -/
theorem find?_map (entries : List Value) (k : Kind) :
    (entries.map ρ.value).find? (·.kind ≠ k) = (entries.find? (·.kind ≠ k)).map ρ.value := by
  rw [List.find?_map]
  simp only [Function.comp_def, kind_value]

theorem needsTable_map (entries : List Value) (index fallback : Value) :
    Operation.needsTable (entries.map ρ.value) (ρ.value index) (ρ.value fallback) =
      Operation.needsTable entries index fallback := by
  simp only [Operation.needsTable, find?_map, kind_value, asInt?_value, Option.isNone_map]

end Plans

end Renaming

/-- A renaming, with the scope of the other run that stands for one of this. -/
structure Translation extends Renaming where
  scope : Scope → Scope
  /-- The scopes that are translated. -/
  Admits : Scope → Prop

namespace Translation

/-- What a translation has to grant for each thing that a scope records, taken alone. -/
structure Lawful (M : Translation) : Prop where
  faithful : M.toRenaming.Faithful
  number {s : Scope} : M.Admits s → (M.scope s).number = M.owner s.number
  /-- A scope's own nodes keep their names. -/
  node {s : Scope} (n : NodeId) : M.Admits s → M.node s.number n = n
  constant {s : Scope} (c : Literal) : M.Admits s → M.Admits (s.constant c).2 ∧
    (M.scope s).constant c = ((s.constant c).1, M.scope (s.constant c).2)
  intern {s : Scope} {e : Expr} (k : Kind) : M.Admits s → Discipline.Declares s e.op →
    M.Admits (s.intern e k).2 ∧
      (M.scope s).intern (M.expr e) k = (M.value (s.intern e k).1, M.scope (s.intern e k).2)
  addInput {s : Scope} (role : InputRole) (name : String) (k : Kind) : M.Admits s →
    M.Admits (s.addInput role name k) ∧ (M.scope s).nodeCount = s.nodeCount ∧
      (M.scope s).addInput role name k = M.scope (s.addInput role name k)
  record {s : Scope} (r : Recording) : M.Admits s →
    M.Admits (s.record r) ∧ (M.scope s).record (M.recording r) = M.scope (s.record r)

variable {M : Translation} {α β : Type} {s : Scope}

/-- From the scope that stands for `s`, the step `m'` ends as `m` does from `s`, but for the names,
and in the scope that stands for the one in which `m` ends. -/
def Mirrors (M : Translation) (g : α → α) (m m' : Build α) (s : Scope) : Prop :=
  s.Grows (outcome m s).2 ∧ M.Admits (outcome m s).2 ∧
    outcome m' (M.scope s) = (M.result g (outcome m s).1, M.scope (outcome m s).2)

section Rules

variable {g : α → α} {m m' : Build α}

theorem Mirrors.bind {h : β → β} {k k' : α → Build β} (hm : M.Mirrors g m m' s)
    (hk : ∀ a t, outcome m s = (.ok a, t) → s.Grows t → M.Admits t →
      M.Mirrors h (k a) (k' (g a)) t) :
    M.Mirrors h (m >>= k) (m' >>= k') s := by
  obtain ⟨hg, ha, ho⟩ := hm
  unfold Mirrors
  rw [outcome_bind, outcome_bind, ho]
  rcases hms : outcome m s with ⟨f | a, t⟩ <;> rw [hms] at hg ha
  · exact ⟨hg, ha, rfl⟩
  · obtain ⟨hg', ha', ho'⟩ := hk a t hms hg ha
    exact ⟨hg.trans hg', ha', ho'⟩

theorem mirrors_pure (hs : M.Admits s) (g : α → α) (a : α) :
    M.Mirrors g (pure a) (pure (g a)) s := ⟨.refl s, hs, rfl⟩

theorem mirrors_throw (hs : M.Admits s) (f : Fault ValueError) :
    M.Mirrors g (throw f) (throw (f.map M.error)) s := ⟨.refl s, hs, rfl⟩

theorem Mirrors.map {h : β → β} {k : α → β} (hm : M.Mirrors g m m' s)
    (hk : ∀ a, k (g a) = h (k a)) : M.Mirrors h (k <$> m) (k <$> m') s := by
  rw [map_eq_pure_bind, map_eq_pure_bind]
  exact hm.bind fun a t _ _ ht => hk a ▸ mirrors_pure ht h (k a)

theorem mirrors_require (hs : M.Admits s) (op : String) (a : Value) (ok : Bool) :
    M.Mirrors id (Build.require op a ok) (Build.require op (M.value a) ok) s := by
  simp only [Build.require, Renaming.kind_value]
  split_ifs
  · exact mirrors_pure hs id _
  · exact mirrors_throw hs (.error (.invalidOperand op a.kind))

end Rules

namespace Lawful

open Build

section Nodes

variable (hM : M.Lawful) (hs : M.Admits s)
include hM hs

theorem mirrors_record (r : Recording) :
    M.Mirrors id (modify (·.record r)) (modify (·.record (M.recording r))) s := by
  obtain ⟨ha, hr⟩ := hM.record r hs
  refine ⟨s.record_grows r, ha, ?_⟩
  exact congrArg (Prod.mk _) hr

/-- A foreign value is refused under its name in the other run. -/
theorem mirrors_materialize (v : Value) :
    M.Mirrors id (materialize v) (materialize (M.value v)) s := by
  cases v with
  | concrete c =>
    obtain ⟨ha, hc⟩ := hM.constant c hs
    refine ⟨s.constant_grows c, ha, ?_⟩
    change (Except.ok ((M.scope s).constant c).1, ((M.scope s).constant c).2) = _
    rw [hc]
    rfl
  | symbolic n k number =>
    have hnumber : M.owner number = (M.scope s).number ↔ number = s.number := by
      rw [hM.number hs]
      exact hM.faithful.owner.eq_iff
    simp only [materialize, Renaming.value, Mirrors, outcome_bind, outcome_get]
    by_cases ho : number = s.number
    · rw [if_pos ho, if_pos (hnumber.2 ho), ho, hM.node n hs]
      exact ⟨.refl s, hs, rfl⟩
    · rw [if_neg ho, if_neg (hnumber.not.2 ho), hM.number hs]
      exact ⟨.refl s, hs, rfl⟩

theorem mirrors_materializeAll (vs : List Value) :
    M.Mirrors id (vs.mapM materialize) ((vs.map M.value).mapM materialize) s := by
  induction vs generalizing s with
  | nil => exact mirrors_pure hs id []
  | cons v vs ih =>
    rw [List.map_cons, List.mapM_cons, List.mapM_cons]
    exact (hM.mirrors_materialize hs v).bind fun n t _ _ ht =>
      (ih ht).bind fun ns u _ _ hu => mirrors_pure hu id (n :: ns)

theorem mirrors_intern {e : Expr} (he : Discipline.Declares s e.op) (k : Kind) :
    M.Mirrors M.value (Build.intern e k) (Build.intern (M.expr e) k) s := by
  obtain ⟨ha, hi⟩ := hM.intern k hs he
  refine ⟨s.intern_grows e k, ha, ?_⟩
  change (Except.ok ((M.scope s).intern (M.expr e) k).1, ((M.scope s).intern (M.expr e) k).2) = _
  rw [hi]
  rfl

theorem mirrors_input (role : InputRole) (name : String) (k : Kind) :
    M.Mirrors M.value (input role name k) (input role name k) s := by
  obtain ⟨ha, hcount, hi⟩ := hM.addInput role name k hs
  refine ⟨s.addInput_grows role name k, ha, ?_⟩
  change (Except.ok (Value.symbolic (M.scope s).nodeCount k (M.scope s).number),
    (M.scope s).addInput role name k) = (Except.ok (M.value (.symbolic s.nodeCount k s.number)), _)
  rw [hi, hcount, hM.number hs, Renaming.value, hM.node s.nodeCount hs]
  rfl

/-- The node of an operator that names no table and no array. -/
theorem mirrors_node {o : Op} (hop : ∀ t, Discipline.Declares t o) (hsame : M.op o = o)
    (domain : Kind) (vs : List Value) (k : Kind) :
    M.Mirrors M.value (Plan.node o domain vs k).exec (Plan.node o domain (vs.map M.value) k).exec
      s := by
  refine (hM.mirrors_materializeAll hs vs).bind fun ns t _ _ ht => ?_
  have hexpr : M.expr ⟨o, domain, ns⟩ = ⟨o, domain, ns⟩ := congrArg (Expr.mk · domain ns) hsame
  have hi := hM.mirrors_intern ht (e := ⟨o, domain, ns⟩) (hop t) k
  rwa [hexpr] at hi

theorem mirrors_primitive (p : Primitive) :
    M.Mirrors M.value p.plan.exec (p.map M.value).plan.exec s := by
  rw [Renaming.plan_map hM.faithful]
  have hwithin := p.plan_within
  cases hp : p.plan with
  | give v => exact mirrors_pure hs M.value v
  | refuse f => exact mirrors_throw hs f
  | node op domain vs k =>
    rw [hp] at hwithin
    have hnamed : op.isNamed = false := hwithin.2.1
    refine hM.mirrors_node hs (fun t => ?_) ?_ domain vs k
    · cases op with
      | table id | arrayRef id => cases hnamed
      | _ => trivial
    · cases op with
      | table id | arrayRef id => cases hnamed
      | _ => rfl

theorem mirrors_all (vs : List Value) :
    M.Mirrors M.value (all vs) (all (vs.map M.value)) s := by
  suffices ∀ acc : Value, M.Mirrors M.value (vs.foldlM and acc)
      ((vs.map M.value).foldlM and (M.value acc)) s from this (.bool true)
  induction vs generalizing s with
  | nil => exact fun acc => mirrors_pure hs M.value acc
  | cons v vs ih =>
    intro acc
    rw [List.map_cons, List.foldlM_cons, List.foldlM_cons, ← Plan.exec_and, ← Plan.exec_and]
    exact (hM.mirrors_primitive hs (.and acc v)).bind fun acc t _ _ ht => ih ht acc

end Nodes

section Registries

variable (hM : M.Lawful) (hs : M.Admits s)
include hM hs

theorem mirrors_applyKnown (known : Option Signature) (name : String) (result : Kind)
    (args : List Value) :
    M.Mirrors M.value (applyKnown known name result args)
      (applyKnown known name result (args.map M.value)) s := by
  have hnode := hM.mirrors_node (o := .apply name) hs (fun _ => trivial) rfl
    (Work.applicationDomain result args) args result
  simp only [applyKnown, Renaming.map_kind_value, Renaming.applicationDomain_map]
  rcases known with _ | declared
  · exact hnode
  · simp only
    split_ifs
    · exact hnode
    · exact mirrors_throw hs (.error (.signatureMismatch name declared _))

theorem mirrors_tabulate (id : Nat) (entries : List Value) (index fallback : Value) :
    M.Mirrors M.value (tabulate id entries index fallback)
      (tabulate (M.tableId id) (entries.map M.value) (M.value index) (M.value fallback)) s := by
  simp only [tabulate, Renaming.kind_value]
  refine (hM.mirrors_materializeAll hs entries).bind fun ns t _ _ ht => ?_
  refine (hM.mirrors_record ht (.table ⟨id, index.kind, fallback.kind, ns⟩)).bind
    fun _ u hu _ hU => ?_
  refine (hM.mirrors_materialize hU index).bind fun ni u' _ hg hU' => ?_
  refine (hM.mirrors_materialize hU' fallback).bind fun nd u'' _ hg' hU'' => ?_
  -- the table is still there when it is applied
  have hmem : (⟨id, index.kind, fallback.kind, ns⟩ : Table) ∈ u.tables := by
    cases hu
    exact List.mem_append_right _ (List.mem_singleton_self _)
  exact hM.mirrors_intern hU'' (e := ⟨.table id, index.kind, [ni, nd]⟩)
    ⟨_, (hg.trans hg').tables.subset hmem, rfl⟩ fallback.kind

theorem mirrors_lookupAt (id : Nat) (entries : List Value) (index fallback : Value) :
    M.Mirrors M.value (lookupAt id entries index fallback)
      (lookupAt (M.tableId id) (entries.map M.value) (M.value index) (M.value fallback)) s := by
  simp only [lookupAt, Renaming.find?_map, Renaming.kind_value, Renaming.asInt?_value,
    List.length_map]
  refine (mirrors_require hs _ index _).bind fun _ t _ _ ht => ?_
  generalize entries.find? _ = bad?
  rcases bad? with _ | bad
  · simp only [Option.map_none]
    rcases index.asInt? with _ | i
    · exact hM.mirrors_tabulate ht id entries index fallback
    · have hget : (if 0 ≤ i then (entries.map M.value).getD i.toNat (M.value fallback)
          else M.value fallback) = M.value (if 0 ≤ i then entries.getD i.toNat fallback
          else fallback) := by
        split_ifs
        · simp only [List.getD_eq_getElem?_getD, List.getElem?_map, Option.getD_map]
        · rfl
      simp only [hget]
      exact mirrors_pure ht M.value _
  · simp only [Option.map_some, Renaming.kind_value]
    exact mirrors_throw ht (.error (.tableKind entries.length bad.kind fallback.kind))

theorem mirrors_declareArray (id : Nat) (name : String) (key value : Kind) :
    M.Mirrors M.value (declareArray id name key value)
      (declareArray (M.arrayId id) name key value) s := by
  refine (hM.mirrors_record hs (.array ⟨id, name, key, value⟩)).bind fun _ t ht _ hT => ?_
  have hmem : (⟨id, name, key, value⟩ : ArrayDecl) ∈ t.arrays := by
    cases ht
    exact List.mem_append_right _ (List.mem_singleton_self _)
  exact hM.mirrors_intern hT (e := ⟨.arrayRef id, .array key value, []⟩) ⟨_, hmem, rfl⟩ _

end Registries

section Artifacts

variable (hM : M.Lawful) (hs : M.Admits s)
include hM hs

theorem mirrors_labelled (label : String) (v : Value) {r : Labelled → Recording}
    (hr : ∀ l, M.recording (r l) = r l) :
    M.Mirrors id (do let l ← labelled label v; modify (·.record (r l)))
      (do let l ← labelled label (M.value v); modify (·.record (r l))) s := by
  have hl : M.Mirrors id (labelled label v) (labelled label (M.value v)) s :=
    (hM.mirrors_materialize hs v).bind fun n t _ _ ht => mirrors_pure ht id (Labelled.mk label n)
  refine hl.bind fun l t _ _ ht => ?_
  have hrecord := hM.mirrors_record ht (r l)
  rwa [hr l] at hrecord

theorem mirrors_observe (label : String) (v : Value) :
    M.Mirrors id (observe label v) (observe label (M.value v)) s :=
  hM.mirrors_labelled hs label v (r := .observable) fun _ => rfl

theorem mirrors_constrain (label : String) (v : Value) :
    M.Mirrors id (constrain label v) (constrain label (M.value v)) s := by
  simp only [constrain, Renaming.kind_value, Renaming.asBool?_value]
  refine (mirrors_require hs _ v _).bind fun _ t _ _ ht => ?_
  split_ifs
  · exact mirrors_pure ht id _
  · exact hM.mirrors_labelled ht label v (r := .constraint) fun _ => rfl

theorem mirrors_assert (label : String) (v : Value) :
    M.Mirrors id (Build.assert label v) (Build.assert label (M.value v)) s := by
  simp only [Build.assert, Renaming.kind_value, Renaming.asBool?_value]
  refine (mirrors_require hs _ v _).bind fun _ t _ _ ht => ?_
  split_ifs
  · exact mirrors_pure ht id _
  · exact hM.mirrors_labelled ht label v (r := .assertion) fun _ => rfl

theorem mirrors_addOutput (v : Value) :
    M.Mirrors id (addOutput v) (addOutput (M.value v)) s :=
  (hM.mirrors_materialize hs v).bind fun n _ _ _ ht =>
    (hM.mirrors_record ht (.output n)).bind fun _ _ _ _ hu => mirrors_pure hu id n

end Artifacts

/-- An operation on renamed operands, in a session with the same signatures and in which the next
table and the next array have the names that they have here. -/
theorem mirrors_scopeStep (hM : M.Lawful) (hs : M.Admits s) {w w' : Workspace}
    (hsig : ∀ name, w'.signature? name = w.signature? name)
    (htable : w'.takeTableId.1 = M.tableId w.takeTableId.1)
    (harray : w'.takeArrayId.1 = M.arrayId w.takeArrayId.1) (o : Operation) :
    M.Mirrors (Option.map M.value) (o.scopeStep w) ((o.map M.value).scopeStep w') s := by
  have issues {m m' : Build Value} (h : M.Mirrors M.value m m' s) :
      M.Mirrors (Option.map M.value) (some <$> m) (some <$> m') s := h.map fun _ => rfl
  have records {α : Type} {m m' : Build α} (h : M.Mirrors id m m' s) :
      M.Mirrors (Option.map M.value) ((fun _ => none) <$> m) ((fun _ => none) <$> m') s :=
    h.map fun _ => rfl
  cases o with
  | primitive p => exact issues (hM.mirrors_primitive hs p)
  | all vs => exact issues (hM.mirrors_all hs vs)
  | input role name kind => exact issues (hM.mirrors_input hs role name kind)
  | apply name result args =>
    simp only [Operation.map, Operation.scopeStep, hsig name]
    exact issues (hM.mirrors_applyKnown hs _ name result args)
  | lookup entries index fallback =>
    simp only [Operation.map, Operation.scopeStep, htable]
    exact issues (hM.mirrors_lookupAt hs _ entries index fallback)
  | newArray name key value =>
    simp only [Operation.map, Operation.scopeStep, harray]
    exact issues (hM.mirrors_declareArray hs _ name key value)
  | materialize v => exact records (hM.mirrors_materialize hs v)
  | observe label v => exact records (hM.mirrors_observe hs label v)
  | constrain label v => exact records (hM.mirrors_constrain hs label v)
  | assert label v => exact records (hM.mirrors_assert hs label v)
  | addOutput v => exact records (hM.mirrors_addOutput hs v)
  | addCodeSegment function lines =>
    exact records (hM.mirrors_record hs (.codeSegment ⟨function, lines⟩))
  | registerDefinition sig d => exact mirrors_pure hs _ none
  | addAxiom text => exact mirrors_pure hs _ none
  | forgetUninterpreted name => exact mirrors_pure hs _ none

end Lawful

end Translation

namespace Target

section Ends

variable {e : ValueError → ValueError} {f : LowerError → LowerError}

/-- A computation that ends with other names settles with them, if validation does. -/
theorem settle_map {context : String} {k : Kind} {s s' : Scope}
    (hreplay : ∀ x, f (.replay context x) = .replay context (e x))
    (hvalidate : s'.finish.validate context k = (s.finish.validate context k).mapError f)
    (r : Except (Fault ValueError) NodeId) :
    settle context k (Except.mapBoth (Fault.map e) id r) s' =
      Except.mapBoth (Fault.map f) id (settle context k r s) := by
  rcases r with (x | v) | n
  · simp only [settle, Except.mapBoth, Fault.map, hreplay]
  · rfl
  · simp only [settle, Except.mapBoth, hvalidate]
    rcases s.finish.validate context k with x | v <;> rfl

/-- A valid trace is spelled without a name that could be another. -/
theorem map_emit
    (hself : ∀ context used sig, f (.unsupported context (.selfCall used sig)) =
      .unsupported context (.selfCall used sig))
    (t : Target) (w : Workspace) (v : ValidTrace) :
    Except.mapBoth (Fault.map f) id (t.emit w v) = t.emit w v := by
  have hviolation {α : Type} (x : Except Violation α) :
      Except.mapBoth (Fault.map f) id (x.mapError .violation) = x.mapError .violation := by
    cases x <;> rfl
  cases t with
  | lambda k => exact hviolation v.lambdaText
  | function name k =>
    simp only [emit]
    rcases w.uninterpreted.find? name with _ | used
    · exact hviolation (v.declaration name)
    · simp only
      split_ifs
      · exact hviolation (v.declaration name)
      · exact congrArg (fun x => Except.error (Fault.error x)) (hself _ _ _)
  | constraint label => exact hviolation (v.constraintText label)

end Ends

end Target

end SmtLowering
