import SmtLowering.Proofs.Keeps

/-!
# Disciplines

A discipline says what is asked of the literals, the issued nodes and the expressions of a scope.
`Discipline.Lawful` is what it has to grant for each operation taken alone; a scope that conforms to
a lawful discipline does so after every operation, also after one that fails, and what the operation
issues conforms as well (`Discipline.Lawful.scopeStep_keeps`).
-/

namespace SmtLowering

/-- The signatures that names have in a scope. -/
abbrev Signatures := String → Option Signature

structure Discipline where
  literal : Literal → Prop
  /-- Of a node that was issued under a kind. -/
  node : Scope → NodeId → Kind → Prop
  /-- Of the expression of a node of that kind. -/
  expr : Signatures → Scope → Expr → Kind → Prop

namespace Discipline

section Conformance

variable (D : Discipline) (σ : Signatures) (F : Value → Prop)

/-- The value may be met in the scope, where values of other scopes are those of `F`. -/
def Holds (s : Scope) : Value → Prop
  | .concrete c => D.literal c
  | .symbolic n k number => if number = s.number then D.node s n k else F (.symbolic n k number)

structure Conforms (s : Scope) : Prop where
  arena : s.Arena
  literals : ∀ p ∈ s.constants, D.literal p.2
  exprs : ∀ p ∈ s.assignments, ∃ k, s.kindOf? p.1 = some k ∧ D.expr σ s p.2 k

/-- The expression may stand for a node of the kind once its operands are nodes of the scope. -/
def AllowsNode (s : Scope) (op : Op) (domain : Kind) (vs : List Value) (k : Kind) : Prop :=
  (∀ v ∈ vs, D.Holds F s v) ∧
    ∀ t ns, s.Grows t → D.Conforms σ t → List.Forall₂ t.NodeOf vs ns → D.expr σ t ⟨op, domain, ns⟩ k

def Allows (s : Scope) : Plan → Prop
  | .give v => D.Holds F s v
  | .refuse _ => True
  | .node op domain vs k => D.AllowsNode σ F s op domain vs k

/-- What a discipline grants for each operation taken alone. -/
structure Lawful : Prop where
  bool (b : Bool) : D.literal (.bool b)
  node_lt {s : Scope} {n : NodeId} {k : Kind} : D.node s n k → n < s.nodeCount
  node_grows {s t : Scope} {n : NodeId} {k : Kind} : s.Grows t → D.node s n k → D.node t n k
  expr_grows {s t : Scope} {e : Expr} {k : Kind} : s.Grows t → D.expr σ s e k → D.expr σ t e k
  /-- A new node is issued under its own kind. -/
  issued {s : Scope} {n : NodeId} {k : Kind} : s.kindOf? n = some k → D.node s n k
  /-- The node of a known expression is issued under the kind that is asked for. -/
  reissued {s : Scope} {n : NodeId} {e : Expr} {k : Kind} :
    D.Conforms σ s → (n, e) ∈ s.assignments → D.expr σ s e k → D.node s n k
  primitive {s : Scope} (p : Primitive) :
    D.Conforms σ s → (∀ v ∈ p.operands, D.Holds F s v) → D.Allows σ F s p.plan
  apply {s : Scope} {name : String} {result : Kind} {args : List Value} :
    D.Conforms σ s → (∀ v ∈ args, D.Holds F s v) → σ name = some ⟨args.map Value.kind, result⟩ →
    D.AllowsNode σ F s (.apply name) (Work.applicationDomain result args) args result
  table {s : Scope} {id : Nat} {index fallback : Value} {entries : List NodeId} :
    D.Conforms σ s → D.Holds F s index → D.Holds F s fallback →
    (⟨id, index.kind, fallback.kind, entries⟩ : Table) ∈ s.tables →
    D.AllowsNode σ F s (.table id) index.kind [index, fallback] fallback.kind
  array {s : Scope} {a : ArrayDecl} : D.Conforms σ s → a ∈ s.arrays →
    D.expr σ s ⟨.arrayRef a.id, .array a.key a.value, []⟩ (.array a.key a.value)

end Conformance

variable {D : Discipline} {σ : Signatures} {F : Value → Prop} {s t : Scope}

theorem holds_own (n : NodeId) (k : Kind) :
    D.Holds F s (.symbolic n k s.number) ↔ D.node s n k := by
  simp only [Holds, if_true]

theorem holds_other {n : NodeId} {k : Kind} {number : Nat} (h : number ≠ s.number) :
    D.Holds F s (.symbolic n k number) ↔ F (.symbolic n k number) := by
  simp only [Holds, if_neg h]

namespace Conforms

theorem constant (h : D.Conforms σ s) (hD : D.Lawful σ F) {c : Literal} (hc : D.literal c) :
    D.Conforms σ (s.constant c).2 := by
  have hg := Scope.constant_grows s c
  refine ⟨h.arena.constant c, ?_, ?_⟩
  · rcases hl : s.constIds.lookup c with _ | n
    · rw [Scope.constant_of_lookup_none hl]
      intro p hp
      rcases List.mem_append.1 hp with hp | hp
      · exact h.literals p hp
      · rw [List.mem_singleton] at hp
        subst hp
        exact hc
    · rw [Scope.constant_of_lookup hl]
      exact h.literals
  · have ha : (s.constant c).2.assignments = s.assignments := by
      rcases hl : s.constIds.lookup c with _ | n
      · rw [Scope.constant_of_lookup_none hl]
      · rw [Scope.constant_of_lookup hl]
    rw [ha]
    intro p hp
    obtain ⟨k, hk, he⟩ := h.exprs p hp
    exact ⟨k, hg.kindOf?_of_some hk, hD.expr_grows hg he⟩

theorem intern (h : D.Conforms σ s) (hD : D.Lawful σ F) {e : Expr} {k : Kind}
    (ha : ∀ a ∈ e.args, a < s.nodeCount) (he : D.expr σ s e k) :
    D.Conforms σ (s.intern e k).2 ∧ D.Holds F (s.intern e k).2 (s.intern e k).1 := by
  have hg := Scope.intern_grows s e k
  have hA := h.arena.intern ha k
  rcases hl : s.exprIds.lookup e with _ | n
  · rw [Scope.intern_of_lookup_none hl] at hg hA ⊢
    have hnew := Scope.kindOf?_nodeCount s k
    refine ⟨⟨hA, h.literals, fun p hp => ?_⟩, (holds_own _ _).2 (hD.issued hnew)⟩
    rcases List.mem_append.1 hp with hp | hp
    · obtain ⟨k', hk', he'⟩ := h.exprs p hp
      exact ⟨k', hg.kindOf?_of_some hk', hD.expr_grows hg he'⟩
    · rw [List.mem_singleton] at hp
      subst hp
      exact ⟨k, hnew, hD.expr_grows hg he⟩
  · rw [Scope.intern_of_lookup hl]
    exact ⟨h, (holds_own n k).2 (hD.reissued h ((h.arena.exprIds_iff e n).1 hl) he)⟩

theorem addInput (h : D.Conforms σ s) (hD : D.Lawful σ F) (role : InputRole) (name : String)
    (k : Kind) : D.Conforms σ (s.addInput role name k) := by
  have hg := Scope.addInput_grows s role name k
  refine ⟨h.arena.addInput role name k, h.literals, fun p hp => ?_⟩
  obtain ⟨k', hk', he⟩ := h.exprs p hp
  exact ⟨k', hg.kindOf?_of_some hk', hD.expr_grows hg he⟩

/-- What is recorded beside the nodes does not matter, as long as nothing is lost. -/
theorem artifacts (h : D.Conforms σ s) (hD : D.Lawful σ F) {tables : List Table}
    {arrays : List ArrayDecl} {codeSegments : List CodeSegment}
    {observables constraints assertions : List Labelled} {outputs : List NodeId}
    (hg : s.Grows
      { s with tables, arrays, codeSegments, observables, constraints, assertions, outputs }) :
    D.Conforms σ
      { s with tables, arrays, codeSegments, observables, constraints, assertions, outputs } := by
  refine ⟨h.arena.artifacts _ _ _ _ _ _ _, h.literals, fun p hp => ?_⟩
  obtain ⟨k, hk, he⟩ := h.exprs p hp
  exact ⟨k, hk, hD.expr_grows hg he⟩

end Conforms

theorem conforms_blank (hD : D.Lawful σ F) (number level : Nat) (config : Config)
    (branches : BranchIds) : D.Conforms σ (.blank number level config branches) := by
  refine ⟨Scope.blank_arena _ _ _ _, ?_, ?_⟩
  · rw [Scope.blank_eq]
    intro p hp
    rcases List.mem_cons.1 hp with rfl | hp
    · exact hD.bool false
    · rw [List.mem_singleton] at hp
      subst hp
      exact hD.bool true
  · rw [Scope.blank_eq]
    simp

namespace Lawful

variable (hD : D.Lawful σ F)
include hD

theorem holds_grows (hg : s.Grows t) {v : Value} (h : D.Holds F s v) : D.Holds F t v := by
  cases v with
  | concrete c => exact h
  | symbolic n k number =>
    simp only [Holds, hg.number] at h ⊢
    split_ifs at h ⊢
    · exact hD.node_grows hg h
    · exact h

theorem admits {v : Value} (h : D.Holds F s v) : s.Admits v := by
  cases v with
  | concrete c => trivial
  | symbolic n k number =>
    rintro rfl
    exact hD.node_lt ((holds_own n k).1 h)

section Steps

open Build

theorem keeps_materialize (h : D.Conforms σ s) {v : Value} (hv : D.Holds F s v) :
    Keeps (D.Conforms σ) (materialize v) s fun n t => t.NodeOf v n := by
  refine Build.keeps_materialize (fun _ => Conforms.arena) h (hD.admits hv) ?_
  rintro c rfl
  exact h.constant hD hv

theorem keeps_materializeAll {vs : List Value} (h : D.Conforms σ s) (hv : ∀ v ∈ vs, D.Holds F s v) :
    Keeps (D.Conforms σ) (vs.mapM materialize) s fun ns t => List.Forall₂ t.NodeOf vs ns := by
  refine Build.keeps_materializeAll (fun _ => Conforms.arena) h (fun v hm => hD.admits (hv v hm)) ?_
  exact fun c hc t _ ht => ht.constant hD (hv _ hc)

theorem keeps_intern (h : D.Conforms σ s) {e : Expr} {k : Kind}
    (ha : ∀ a ∈ e.args, a < s.nodeCount) (he : D.expr σ s e k) :
    Keeps (D.Conforms σ) (intern e k) s fun v t => D.Holds F t v := by
  obtain ⟨hi, hv⟩ := h.intern hD ha he
  refine ⟨Scope.intern_grows s e k, hi, fun v hv' => ?_⟩
  cases hv'
  exact hv

theorem keeps_exec {p : Plan} (h : D.Conforms σ s) (hp : D.Allows σ F s p) :
    Keeps (D.Conforms σ) p.exec s fun v t => D.Holds F t v := by
  cases p with
  | give v => exact keeps_pure h hp
  | refuse f => exact keeps_throw h f
  | node op domain vs k =>
    obtain ⟨hv, he⟩ := hp
    refine (hD.keeps_materializeAll h hv).bind fun ns t hg ht hns => ?_
    exact hD.keeps_intern ht (ht.arena.nodesOf_lt hns) (he t ns hg ht hns)

theorem keeps_and (h : D.Conforms σ s) {a b : Value} (ha : D.Holds F s a) (hb : D.Holds F s b) :
    Keeps (D.Conforms σ) (Build.and a b) s fun v t => D.Holds F t v := by
  rw [← Plan.exec_and]
  refine hD.keeps_exec h (hD.primitive (.and a b) h fun v hv => ?_)
  rcases List.mem_cons.1 hv with rfl | hv
  · exact ha
  · rw [List.mem_singleton] at hv
    exact hv ▸ hb

theorem keeps_all {vs : List Value} (h : D.Conforms σ s) (hv : ∀ v ∈ vs, D.Holds F s v) :
    Keeps (D.Conforms σ) (Build.all vs) s fun v t => D.Holds F t v := by
  suffices ∀ acc, D.Holds F s acc →
      Keeps (D.Conforms σ) (vs.foldlM Build.and acc) s fun v t => D.Holds F t v from
    this _ (hD.bool true)
  induction vs generalizing s with
  | nil => exact fun acc hacc => keeps_pure h hacc
  | cons v vs ih =>
    intro acc hacc
    rw [List.foldlM_cons]
    refine (hD.keeps_and h hacc (hv v List.mem_cons_self)).bind fun acc t hg ht hacc => ?_
    exact ih ht (fun u hu => hD.holds_grows hg (hv u (List.mem_cons_of_mem _ hu))) acc hacc

theorem keeps_input (h : D.Conforms σ s) (role : InputRole) (name : String) (k : Kind) :
    Keeps (D.Conforms σ) (input role name k) s fun v t => D.Holds F t v := by
  refine ⟨Scope.addInput_grows s role name k, h.addInput hD role name k, fun v hv => ?_⟩
  cases hv
  exact (holds_own _ _).2 (hD.issued (Scope.kindOf?_nodeCount s k))

theorem keeps_tabulate (h : D.Conforms σ s) (id : Nat) {entries : List Value}
    {index fallback : Value} (he : ∀ v ∈ entries, D.Holds F s v) (hi : D.Holds F s index)
    (hf : D.Holds F s fallback) :
    Keeps (D.Conforms σ) (tabulate id entries index fallback) s fun v t => D.Holds F t v := by
  refine (hD.keeps_materializeAll h he).bind fun ns t hg ht hns => ?_
  have hg' : t.Grows { t with tables := t.tables ++ [⟨id, index.kind, fallback.kind, ns⟩] } :=
    { Scope.Grows.refl t with tables := List.prefix_append _ _ }
  have ht' := ht.artifacts hD hg'
  refine (keeps_modify (P := fun _ u =>
      (⟨id, index.kind, fallback.kind, ns⟩ : Table) ∈ u.tables) hg' ht'
    (List.mem_append_right _ (List.mem_singleton.2 rfl))).bind fun _ u hu hU hmem => ?_
  have hi' := hD.holds_grows (hg.trans hu) hi
  have hf' := hD.holds_grows (hg.trans hu) hf
  obtain ⟨-, hexpr⟩ := hD.table hU hi' hf' hmem
  refine (hD.keeps_materialize hU hi').bind fun ni u₁ h₁ hU₁ hni => ?_
  refine (hD.keeps_materialize hU₁ (hD.holds_grows h₁ hf')).bind fun nd u₂ h₂ hU₂ hnd => ?_
  have hns : List.Forall₂ u₂.NodeOf [index, fallback] [ni, nd] :=
    .cons (h₂.nodeOf hni) (.cons hnd .nil)
  exact hD.keeps_intern hU₂ (hU₂.arena.nodesOf_lt hns) (hexpr u₂ _ (h₁.trans h₂) hU₂ hns)

theorem keeps_lookupAt (h : D.Conforms σ s) (id : Nat) {entries : List Value}
    {index fallback : Value} (he : ∀ v ∈ entries, D.Holds F s v) (hi : D.Holds F s index)
    (hf : D.Holds F s fallback) :
    Keeps (D.Conforms σ) (lookupAt id entries index fallback) s fun v t => D.Holds F t v := by
  refine (keeps_require h _ _ _).bind fun _ t _ ht hts => ?_
  obtain ⟨rfl, -⟩ := hts
  split
  · exact keeps_throw ht _
  · split
    · next i _ => exact keeps_pure ht (answer_of_forall he hf i)
    · exact hD.keeps_tabulate ht id he hi hf

theorem keeps_declareArray (h : D.Conforms σ s) (id : Nat) (name : String) (key value : Kind) :
    Keeps (D.Conforms σ) (declareArray id name key value) s fun v t => D.Holds F t v := by
  have hg : s.Grows { s with arrays := s.arrays ++ [⟨id, name, key, value⟩] } :=
    { Scope.Grows.refl s with arrays := List.prefix_append _ _ }
  refine (keeps_modify (P := fun _ u => (⟨id, name, key, value⟩ : ArrayDecl) ∈ u.arrays) hg
    (h.artifacts hD hg) (List.mem_append_right _ (List.mem_singleton.2 rfl))).bind
    fun _ t _ ht hmem => ?_
  exact hD.keeps_intern ht (by simp) (hD.array ht hmem)

/-- An application that agrees with the signatures is allowed by them. -/
theorem keeps_applyKnown (h : D.Conforms σ s) {known : Option Signature} {name : String}
    {result : Kind} {args : List Value} (hv : ∀ v ∈ args, D.Holds F s v)
    (hσ : known.getD ⟨args.map Value.kind, result⟩ = ⟨args.map Value.kind, result⟩ →
      σ name = some ⟨args.map Value.kind, result⟩) :
    Keeps (D.Conforms σ) (applyKnown known name result args) s fun v t => D.Holds F t v := by
  unfold applyKnown
  rcases known with _ | declared
  · exact hD.keeps_exec h (hD.apply h hv (hσ rfl))
  · simp only
    split_ifs with hd
    · exact hD.keeps_exec h (hD.apply h hv (hσ hd))
    · exact keeps_throw h _

theorem keeps_recorded (h : D.Conforms σ s) {v : Value} (hv : D.Holds F s v) (label : String)
    (record : Labelled → Scope → Scope)
    (hr : ∀ l t, D.Conforms σ t → t.Grows (record l t) ∧ D.Conforms σ (record l t)) :
    Keeps (D.Conforms σ) (do let l ← labelled label v; modify (record l)) s fun _ _ => True := by
  have hl : Keeps (D.Conforms σ) (labelled label v) s fun _ _ => True :=
    (hD.keeps_materialize h hv).bind fun n t _ ht _ => keeps_pure ht trivial
  refine hl.bind fun l t _ ht _ => ?_
  obtain ⟨hg, hc⟩ := hr l t ht
  exact keeps_modify hg hc trivial

theorem keeps_constrain (h : D.Conforms σ s) {v : Value} (hv : D.Holds F s v) (label : String) :
    Keeps (D.Conforms σ) (constrain label v) s fun _ _ => True := by
  refine (keeps_require h _ _ _).bind fun _ t _ ht hts => ?_
  obtain ⟨rfl, -⟩ := hts
  split_ifs
  · exact keeps_pure ht trivial
  · refine hD.keeps_recorded ht hv label
      (fun l t => { t with constraints := t.constraints ++ [l] }) fun l t ht => ?_
    have hg : t.Grows { t with constraints := t.constraints ++ [l] } :=
      { Scope.Grows.refl t with constraints := List.prefix_append _ _ }
    exact ⟨hg, ht.artifacts hD hg⟩

theorem keeps_assert (h : D.Conforms σ s) {v : Value} (hv : D.Holds F s v) (label : String) :
    Keeps (D.Conforms σ) (Build.assert label v) s fun _ _ => True := by
  refine (keeps_require h _ _ _).bind fun _ t _ ht hts => ?_
  obtain ⟨rfl, -⟩ := hts
  split_ifs
  · exact keeps_pure ht trivial
  · refine hD.keeps_recorded ht hv label
      (fun l t => { t with assertions := t.assertions ++ [l] }) fun l t ht => ?_
    have hg : t.Grows { t with assertions := t.assertions ++ [l] } :=
      { Scope.Grows.refl t with assertions := List.prefix_append _ _ }
    exact ⟨hg, ht.artifacts hD hg⟩

theorem keeps_observe (h : D.Conforms σ s) {v : Value} (hv : D.Holds F s v) (label : String) :
    Keeps (D.Conforms σ) (observe label v) s fun _ _ => True := by
  refine hD.keeps_recorded h hv label
    (fun l t => { t with observables := t.observables ++ [l] }) fun l t ht => ?_
  have hg : t.Grows { t with observables := t.observables ++ [l] } :=
    { Scope.Grows.refl t with observables := List.prefix_append _ _ }
  exact ⟨hg, ht.artifacts hD hg⟩

theorem keeps_addOutput (h : D.Conforms σ s) {v : Value} (hv : D.Holds F s v) :
    Keeps (D.Conforms σ) (addOutput v) s fun _ _ => True := by
  refine (hD.keeps_materialize h hv).bind fun n t _ ht _ => ?_
  have hg : t.Grows { t with outputs := t.outputs ++ [n] } :=
    { Scope.Grows.refl t with outputs := List.prefix_append _ _ }
  exact (keeps_modify (P := fun _ _ => True) hg (ht.artifacts hD hg) trivial).bind
    fun _ u _ hu _ => keeps_pure hu trivial

theorem keeps_addCodeSegment (h : D.Conforms σ s) (function : String) (lines : List String) :
    Keeps (D.Conforms σ) (addCodeSegment function lines) s fun _ _ => True := by
  have hg : s.Grows { s with codeSegments := s.codeSegments ++ [⟨function, lines⟩] } :=
    { Scope.Grows.refl s with codeSegments := List.prefix_append _ _ }
  exact keeps_modify hg (h.artifacts hD hg) trivial

/-- An operation, the signatures allowing for its own application. -/
theorem scopeStep_keeps (h : D.Conforms σ s) {w : Workspace} (o : Operation)
    (hv : ∀ v ∈ o.operands, D.Holds F s v)
    (hσ : ∀ name result args, o = .apply name result args →
      (w.signature? name).getD ⟨args.map Value.kind, result⟩ = ⟨args.map Value.kind, result⟩ →
      σ name = some ⟨args.map Value.kind, result⟩) :
    Keeps (D.Conforms σ) (o.scopeStep w) s fun r t => ∀ v, r = some v → D.Holds F t v := by
  have some_ {m : Build Value} (hm : Keeps (D.Conforms σ) m s fun v t => D.Holds F t v) :
      Keeps (D.Conforms σ) (some <$> m) s fun r t => ∀ v, r = some v → D.Holds F t v :=
    hm.map fun v t _ _ hv u hu => by cases hu; exact hv
  have none_ {α : Type} {m : Build α} {P : α → Scope → Prop} (hm : Keeps (D.Conforms σ) m s P) :
      Keeps (D.Conforms σ) ((fun _ => none) <$> m) s fun r t => ∀ v, r = some v → D.Holds F t v :=
    hm.map fun _ _ _ _ _ u hu => by cases hu
  cases o with
  | primitive p => exact some_ (hD.keeps_exec h (hD.primitive p h hv))
  | all vs => exact some_ (hD.keeps_all h hv)
  | input role name kind => exact some_ (hD.keeps_input h role name kind)
  | apply name result args => exact some_ (hD.keeps_applyKnown h hv (hσ _ _ _ rfl))
  | lookup entries index fallback =>
    refine some_ (hD.keeps_lookupAt h _ (fun v hm => hv v ?_) (hv _ ?_) (hv _ ?_)) <;>
      simp only [Operation.operands, List.mem_append, List.mem_cons] <;> tauto
  | newArray name key value => exact some_ (hD.keeps_declareArray h _ name key value)
  | materialize v => exact none_ (hD.keeps_materialize h (hv v List.mem_cons_self))
  | observe label v => exact none_ (hD.keeps_observe h (hv v List.mem_cons_self) label)
  | constrain label v => exact none_ (hD.keeps_constrain h (hv v List.mem_cons_self) label)
  | assert label v => exact none_ (hD.keeps_assert h (hv v List.mem_cons_self) label)
  | addOutput v => exact none_ (hD.keeps_addOutput h (hv v List.mem_cons_self))
  | addCodeSegment function lines => exact none_ (hD.keeps_addCodeSegment h function lines)
  | registerDefinition sig d => exact keeps_pure h fun _ hv => by cases hv
  | addAxiom text => exact keeps_pure h fun _ hv => by cases hv
  | forgetUninterpreted name => exact keeps_pure h fun _ hv => by cases hv

end Steps

end Lawful

end Discipline

end SmtLowering
