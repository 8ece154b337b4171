import SmtLowering.Proofs.Folding
import SmtLowering.Proofs.Values

/-!
# What a step builds

A view fixes an interpretation and the inputs, and says whether only literals count. `View.Denotes`
is that a value has a kind and a datum in a scope; `View.Gives` that a step succeeds, only adds to
the scope, and gives a result of a property. Under a view of literals the result is a literal and
the scope stays as it is, so one specification covers an operation on symbolic values and on
literals. A plan that means a datum gives it (`View.gives_exec`).
-/

namespace SmtLowering

/-- One arena grows into another. -/
structure Scope.Later (s t : Scope) : Prop where
  grows : s.Grows t
  before : s.Arena
  after : t.Arena

theorem Scope.Later.refl {s : Scope} (h : s.Arena) : s.Later s := ⟨.refl s, h, h⟩

theorem Scope.Later.trans {s t u : Scope} (h : s.Later t) (h' : t.Later u) : s.Later u :=
  ⟨h.grows.trans h'.grows, h.before, h'.after⟩

structure View (U : Type) where
  interp : Interpretation U
  inputs : NodeId → Datum U
  /-- Only literals count. -/
  literal : Prop

namespace View

variable {U : Type} (V : View U)

noncomputable def value (s : Scope) (v : Value) : Option (Datum U) := s.valueOf V.interp V.inputs v

structure Denotes (s : Scope) (v : Value) (k : Kind) (d : Datum U) : Prop where
  kind : v.kind = k
  value : V.value s v = some d
  wellFormed : v.WellFormed
  literal : V.literal → v.isConcrete = true

/-- The value is the truth value `b`. -/
def Truth (s : Scope) (v : Value) (b : Bool) : Prop := V.Denotes s v .bool (.bool b)

/-- The value is the word `x`, of a kind of this signedness. -/
def Word (s : Scope) (v : Value) (signed : Bool) {n : Nat} (x : BitVec n) : Prop :=
  V.Denotes s v (.bitVec signed n) (.word x)

/-- The step gives a result of the property and moves the scope on, under a view of literals not at
all. -/
def Gives {α : Type} (m : Build α) (s : Scope) (P : α → Scope → Prop) : Prop :=
  ∃ a t, outcome m s = (.ok a, t) ∧ s.Later t ∧ (V.literal → t = s) ∧ P a t

/-- A plan leads to the datum, as a value or as a node. -/
def Means (s : Scope) (k : Kind) (d : Datum U) : Plan → Prop
  | .give v => V.Denotes s v k d
  | .refuse _ => False
  | .node op domain vs k' => ¬V.literal ∧ k' = k ∧
      ∃ ds, List.Forall₂ (fun v d => V.value s v = some d) vs ds ∧
        V.interp.denote op domain ds = some d

variable {V} {α β : Type} {s t : Scope}

section Rules

variable {m : Build α} {P : α → Scope → Prop}

theorem gives_pure (h : s.Arena) {a : α} (ha : P a s) : V.Gives (pure a) s P :=
  ⟨a, s, rfl, .refl h, fun _ => rfl, ha⟩

theorem Gives.bind {f : α → Build β} {Q : β → Scope → Prop} (h : V.Gives m s P)
    (hf : ∀ a t, s.Later t → P a t → V.Gives (f a) t Q) : V.Gives (m >>= f) s Q := by
  obtain ⟨a, t, ho, ht, hl, hp⟩ := h
  obtain ⟨b, u, ho', hu, hl', hq⟩ := hf a t ht hp
  refine ⟨b, u, (outcome_bind_ok ho).trans ho', ht.trans hu, fun hv => ?_, hq⟩
  rw [hl' hv, hl hv]

/-- A loop over consecutive numbers, by what holds before each turn. -/
theorem gives_foldlM {f : β → Nat → Build β} {b : β} {k m : Nat} {P : Nat → β → Scope → Prop}
    (h : s.Arena) (hb : P 0 b s)
    (step : ∀ i < m, ∀ c t, s.Later t → P i c t → V.Gives (f c (k + i)) t (P (i + 1))) :
    V.Gives ((List.range' k m).foldlM f b) s (P m) := by
  induction m with
  | zero => exact gives_pure h hb
  | succ m ih =>
    have hinit := ih fun i hi => step i (Nat.lt_succ_of_lt hi)
    rw [List.range'_concat, List.foldlM_append]
    refine hinit.bind fun c t l hc => ?_
    rw [List.foldlM_cons, Nat.one_mul]
    refine (step m (Nat.lt_succ_self m) c t l hc).bind fun c' u l' hc' => ?_
    exact gives_pure l'.after hc'

end Rules

section Values

variable {v : Value} {k : Kind} {d : Datum U}

theorem Denotes.later (hv : V.Denotes s v k d) (h : s.Later t) : V.Denotes t v k d :=
  ⟨hv.kind, h.grows.valueOf h.before h.after hv.value, hv.wellFormed, hv.literal⟩

theorem truth_literal (V : View U) (s : Scope) (b : Bool) : V.Truth s (.bool b) b :=
  ⟨rfl, rfl, trivial, fun _ => rfl⟩

theorem word_literal (V : View U) (s : Scope) (signed : Bool) (n : Nat) (i : Int) :
    V.Word s (.concrete (.word signed n i)) signed (BitVec.ofInt n i) :=
  ⟨rfl, V.interp.literal_word signed n i, Literal.word_wellFormed signed n i, fun _ => rfl⟩

/-- What is known to be a truth value is the one it denotes. -/
theorem Truth.of_asBool? {x y : Bool} (hv : V.Truth s v x) (h : v.asBool? = some y) : y = x := by
  cases v with
  | concrete c =>
    obtain ⟨kind, p⟩ := c
    cases p with
    | bool b =>
      obtain rfl : kind = .bool := hv.kind
      cases h
      have hx := hv.value
      cases hx
      rfl
    | _ => cases h
  | symbolic n k number => cases h

end Values

section Nodes

theorem gives_materialize (h : s.Arena) {v : Value} {d : Datum U} (hv : V.value s v = some d) :
    ∃ n t, outcome (Build.materialize v) s = (.ok n, t) ∧ s.Grows t ∧ t.Arena ∧ t.NodeOf v n := by
  cases v with
  | concrete c =>
    exact ⟨_, _, rfl, Scope.constant_grows s c, h.constant c, h.constant_mem c⟩
  | symbolic n k number =>
    simp only [value, Scope.valueOf] at hv
    split_ifs at hv with hn
    have hlt : n < s.nodeCount := by
      by_contra hno
      rw [h.value_eq_none (Nat.not_lt.1 hno)] at hv
      cases hv
    refine ⟨n, s, ?_, .refl s, h, hn, hlt, rfl⟩
    refine (outcome_bind_ok (outcome_get s)).trans ?_
    rw [if_pos hn, outcome_pure]

theorem gives_materializeAll {vs : List Value} {s : Scope} (h : s.Arena)
    (hv : ∀ v ∈ vs, ∃ d, V.value s v = some d) :
    ∃ ns t, outcome (vs.mapM Build.materialize) s = (.ok ns, t) ∧ s.Grows t ∧ t.Arena ∧
      List.Forall₂ t.NodeOf vs ns := by
  induction vs generalizing s with
  | nil => exact ⟨[], s, rfl, .refl s, h, .nil⟩
  | cons v vs ih =>
    obtain ⟨d, hd⟩ := hv v List.mem_cons_self
    obtain ⟨n, t, ho, hg, ht, hn⟩ := gives_materialize h hd
    have hvs : ∀ u ∈ vs, ∃ d, V.value t u = some d := by
      intro u hu
      obtain ⟨e, he⟩ := hv u (List.mem_cons_of_mem _ hu)
      exact ⟨e, hg.valueOf h ht he⟩
    obtain ⟨ns, t', ho', hg', ht', hns⟩ := ih ht hvs
    refine ⟨n :: ns, t', ?_, hg.trans hg', ht', .cons (hg'.nodeOf hn) hns⟩
    rw [List.mapM_cons, outcome_bind_ok ho, outcome_bind_ok ho', outcome_pure]

/-- Nodes that stand for values have theirs. -/
theorem mapM_nodeOf (h : s.Arena) {vs : List Value} {ns : List NodeId} {ds : List (Datum U)}
    (hn : List.Forall₂ s.NodeOf vs ns)
    (hd : List.Forall₂ (fun v d => V.value s v = some d) vs ds) :
    ns.mapM (s.graph.value V.interp V.inputs) = some ds := by
  induction hn generalizing ds with
  | nil =>
    cases hd
    rfl
  | cons hv _ ih =>
    cases hd with
    | cons hd hds =>
      rw [List.mapM_cons, h.value_nodeOf hv, show s.valueOf V.interp V.inputs _ = _ from hd, ih hds]
      rfl

/-- What a plan means is what it gives. -/
theorem gives_exec (h : s.Arena) {p : Plan} {k : Kind} {d : Datum U} (hp : V.Means s k d p) :
    V.Gives p.exec s fun v t => V.Denotes t v k d := by
  cases p with
  | give v => exact gives_pure h hp
  | refuse f => exact hp.elim
  | node op domain vs k' =>
    obtain ⟨hl, rfl, ds, hds, hd⟩ := hp
    have hv : ∀ v ∈ vs, ∃ d, V.value s v = some d := by
      clear hd
      induction hds with
      | nil => simp
      | cons hd _ ih => exact List.forall_mem_cons.2 ⟨⟨_, hd⟩, ih⟩
    obtain ⟨ns, t, ho, hg, ht, hns⟩ := gives_materializeAll h hv
    have ha := ht.intern (e := ⟨op, domain, ns⟩) (ht.nodesOf_lt hns) k'
    have hi := t.intern_grows ⟨op, domain, ns⟩ k'
    obtain ⟨n, hn, hm⟩ := ht.intern_mem ⟨op, domain, ns⟩ k'
    refine ⟨(t.intern ⟨op, domain, ns⟩ k').1, (t.intern ⟨op, domain, ns⟩ k').2,
      outcome_bind_ok ho, ⟨hg.trans hi, h, ha⟩, fun hv => (hl hv).elim, ?_⟩
    rw [hn]
    refine ⟨rfl, ?_, trivial, fun hv => (hl hv).elim⟩
    have hds' := hds.imp fun v d hvd => (hg.trans hi).valueOf h ha hvd
    rw [value, Scope.valueOf, if_pos hi.number.symm, ha.value_target hm, Graph.exprValue]
    rw [mapM_nodeOf ha (hi.nodesOf hns) hds']
    exact hd

end Nodes

end View

end SmtLowering
