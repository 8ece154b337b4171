import Mathlib.Logic.Equiv.Basic
import SmtLowering.Proofs.Frames

/-!
# Snapshots

A scope that is derived with a snapshot of everything is a copy of its parent. Whatever is then
asked of the one is answered as the same questions to the other are, but for the numbers of the two
scopes, and leaves the other as it was (`World.snapshot_faithful`). The two runs are those of one
world, with the two scopes exchanged: each registry of one run reads as that of the other run does,
the two scopes' branches being exchanged (`Branches.Exchanged`).
-/

namespace SmtLowering

/-- What an operation answers with. -/
inductive Answer
  | value (v : Value)
  | node (n : NodeId)
  /-- The signature that a function had, if it had one. -/
  | signature (sig? : Option Signature)
  | done
  deriving DecidableEq

namespace Answer

def map (g : Value → Value) : Answer → Answer
  | value v => value (g v)
  | a => a

end Answer

/-- The operation's answer, which says more than the value that it issues. -/
def Operation.answer (w : Workspace) : Operation → Except (Fault ValueError) Answer
  | .materialize v => (outcome (Build.materialize v) w.scope).1.map .node
  | .addOutput v => (outcome (Build.addOutput v) w.scope).1.map .node
  | .forgetUninterpreted name => .ok (.signature (w.uninterpreted.find? name))
  | o => (outcome o.run w).1.map fun v? => v?.elim .done .value

namespace Branches

variable {α : Type} [Inhabited α]

/-- Of two runs from one registry of `n` branches, what the second has at `b` the first has at `a`,
and the other way round; branches from the `n`th on are the same in both. -/
structure Exchanged (n a b : Nat) (bs bs' : Branches α) : Prop where
  left : a < n
  right : b < n
  length_le : n ≤ bs.contents.length
  length_eq : bs'.contents.length = bs.contents.length
  get_eq : ∀ k, k = a ∨ n ≤ k → bs'.get (Equiv.swap a b k) = bs.get k

section Exchanged

variable {n a b k : Nat} {bs bs' : Branches α}

theorem get_update (bs : Branches α) (i j : Nat) (f : α → α) :
    (bs.update i f).get j =
      if i = j ∧ j < bs.contents.length then f (bs.get j) else bs.get j := by
  by_cases hj : j < bs.contents.length
  · by_cases hi : i = j <;> simp [get, update, List.getD_eq_getElem?_getD, hi, hj]
  · simp [get, update, List.getD_eq_getElem?_getD, hj]

theorem get_of_length_le (h : bs.contents.length ≤ k) : bs.get k = default := by
  rw [get, List.getD_eq_getElem?_getD, List.getElem?_eq_none h, Option.getD_none]

theorem Exchanged.swap_of_le (h : Exchanged n a b bs bs') (hk : n ≤ k) : Equiv.swap a b k = k :=
  Equiv.swap_apply_of_ne_of_ne (Nat.ne_of_gt (h.left.trans_le hk))
    (Nat.ne_of_gt (h.right.trans_le hk))

theorem Exchanged.swap_lt_iff (h : Exchanged n a b bs bs') (hk : k = a ∨ n ≤ k) :
    Equiv.swap a b k < bs'.contents.length ↔ k < bs.contents.length := by
  rw [h.length_eq]
  rcases hk with rfl | hk
  · rw [Equiv.swap_apply_left]
    exact iff_of_true (h.right.trans_le h.length_le) (h.left.trans_le h.length_le)
  · rw [h.swap_of_le hk]

theorem Exchanged.update (h : Exchanged n a b bs bs') (k : Nat) (f : α → α) :
    Exchanged n a b (bs.update k f) (bs'.update (Equiv.swap a b k) f) where
  left := h.left
  right := h.right
  length_le := h.length_le.trans_eq (bs.length_update k f).symm
  length_eq := by rw [length_update, length_update, h.length_eq]
  get_eq j hj := by
    rw [get_update, get_update, h.get_eq j hj]
    refine if_congr ?_ rfl rfl
    rw [(Equiv.swap a b).injective.eq_iff, h.swap_lt_iff hj]

theorem Exchanged.add (h : Exchanged n a b bs bs') (x : α) :
    Exchanged n a b (bs.add x).2 (bs'.add x).2 where
  left := h.left
  right := h.right
  length_le := h.length_le.trans (bs.lt_add x).le
  length_eq := by simp [Branches.add, h.length_eq]
  get_eq j hj := by
    have hlt := h.swap_lt_iff hj
    rcases lt_trichotomy j bs.contents.length with hj' | rfl | hj'
    · rw [get_add_of_lt x hj', get_add_of_lt x (hlt.2 hj'), h.get_eq j hj]
    · rw [h.swap_of_le h.length_le, get_add_self, ← h.length_eq, get_add_self]
    · have hout : (bs.add x).2.contents.length ≤ j := by
        simp only [Branches.add, List.length_append]
        exact hj'
      have hout' : (bs'.add x).2.contents.length ≤ j := by
        simp only [Branches.add, List.length_append, h.length_eq]
        exact hj'
      rw [h.swap_of_le (h.length_le.trans hj'.le), get_of_length_le hout, get_of_length_le hout']

/-- Where a branch is derived in one run, it is in the other. -/
theorem Exchanged.inherit (h : Exchanged n a b bs bs') (hk : k = a ∨ n ≤ k) (p : Scope.Policy) :
    (bs'.inherit (Equiv.swap a b k) p).1 = Equiv.swap a b (bs.inherit k p).1 ∧
      Exchanged n a b (bs.inherit k p).2 (bs'.inherit (Equiv.swap a b k) p).2 := by
  have hnew : bs'.contents.length = Equiv.swap a b bs.contents.length := by
    rw [h.swap_of_le h.length_le, h.length_eq]
  cases p with
  | share => exact ⟨rfl, h⟩
  | snapshot =>
    refine ⟨hnew, ?_⟩
    simp only [Branches.inherit, h.get_eq k hk]
    exact h.add (bs.get k)
  | fresh => exact ⟨hnew, h.add default⟩

/-- A copy reads as what it is a copy of. -/
theorem exchanged_snapshot (ha : a < bs.contents.length) :
    Exchanged (bs.inherit a .snapshot).2.contents.length a (bs.inherit a .snapshot).1
      (bs.inherit a .snapshot).2 (bs.inherit a .snapshot).2 := by
  have hlength : (bs.inherit a .snapshot).2.contents.length = bs.contents.length + 1 := by
    simp [Branches.inherit, Branches.add]
  refine ⟨by omega, ?_, Nat.le_refl _, rfl, fun k hk => ?_⟩
  · rw [hlength]
    exact Nat.lt_succ_self _
  · rcases hk with rfl | hk
    · rw [Equiv.swap_apply_left]
      exact (get_add_self _).trans (get_add_of_lt _ ha).symm
    · rw [Equiv.swap_apply_of_ne_of_ne (by omega)]
      have hne : bs.contents.length ≠ k := by omega
      exact hne.symm

end Exchanged

end Branches

/-- Two scopes have each other's numbers; nodes, tables and arrays keep theirs. -/
def Renaming.exchange (a b : Nat) : Renaming where
  owner := Equiv.swap a b
  node _ n := n
  tableId n := n
  arrayId n := n

/-- In each registry two branches have each other's numbers. -/
def BranchIds.exchange (a b c : BranchIds) : BranchIds where
  uninterpreted := Equiv.swap a.uninterpreted b.uninterpreted c.uninterpreted
  userFunctions := Equiv.swap a.userFunctions b.userFunctions c.userFunctions
  definitions := Equiv.swap a.definitions b.definitions c.definitions
  axioms := Equiv.swap a.axioms b.axioms c.axioms
  tableIds := Equiv.swap a.tableIds b.tableIds c.tableIds
  arrayIds := Equiv.swap a.arrayIds b.arrayIds c.arrayIds

namespace Scope

/-- Two scopes change places. -/
def exchange (p q : Scope) : Translation where
  toRenaming := .exchange p.number q.number
  scope s := { s with
    number := Equiv.swap p.number q.number s.number
    branches := p.branches.exchange q.branches s.branches }
  Admits _ := True

variable {p q : Scope}

theorem exchange_expr (e : Expr) : (p.exchange q).expr e = e := by
  obtain ⟨op, domain, args⟩ := e
  cases op <;> rfl

theorem exchange_recording (r : Recording) : (p.exchange q).recording r = r := by
  cases r <;> rfl

theorem exchange_lawful (p q : Scope) : (p.exchange q).Lawful where
  faithful := ⟨(Equiv.swap p.number q.number).injective, fun _ => Function.injective_id⟩
  number _ := rfl
  node _ _ := rfl
  constant {s} c _ := by
    rcases hl : s.constIds.lookup c with _ | n
    · rw [Scope.constant_of_lookup_none hl, Scope.constant_of_lookup_none (by exact hl)]
      exact ⟨trivial, rfl⟩
    · rw [Scope.constant_of_lookup hl, Scope.constant_of_lookup (by exact hl)]
      exact ⟨trivial, rfl⟩
  intern {s e} k _ _ := by
    rw [exchange_expr]
    rcases hl : s.exprIds.lookup e with _ | n
    · rw [Scope.intern_of_lookup_none hl, Scope.intern_of_lookup_none (by exact hl)]
      exact ⟨trivial, rfl⟩
    · rw [Scope.intern_of_lookup hl, Scope.intern_of_lookup (by exact hl)]
      exact ⟨trivial, rfl⟩
  addInput _ _ _ _ := ⟨trivial, rfl, rfl⟩
  record r _ := by
    rw [exchange_recording]
    cases r <;> exact ⟨trivial, rfl⟩

end Scope

namespace Session

/-- The sessions of two runs from `s₀`, in which the scopes `p` and `q` have changed places. -/
structure Exchanged (s₀ : Session) (p q : Scope) (s s' : Session) : Prop where
  left : p.number < s.scopes
  right : q.number < s.scopes
  scopes : s'.scopes = s.scopes
  uninterpreted : Branches.Exchanged s₀.uninterpreted.contents.length p.branches.uninterpreted
    q.branches.uninterpreted s.uninterpreted s'.uninterpreted
  userFunctions : Branches.Exchanged s₀.userFunctions.contents.length p.branches.userFunctions
    q.branches.userFunctions s.userFunctions s'.userFunctions
  definitions : Branches.Exchanged s₀.definitions.contents.length p.branches.definitions
    q.branches.definitions s.definitions s'.definitions
  axioms : Branches.Exchanged s₀.axioms.contents.length p.branches.axioms q.branches.axioms
    s.axioms s'.axioms
  tableIds : Branches.Exchanged s₀.tableIds.contents.length p.branches.tableIds
    q.branches.tableIds s.tableIds s'.tableIds
  arrayIds : Branches.Exchanged s₀.arrayIds.contents.length p.branches.arrayIds
    q.branches.arrayIds s.arrayIds s'.arrayIds

section Exchanged

variable {s₀ s s' : Session} {p q t : Scope}

theorem Exchanged.sameReadings (h : Exchanged s₀ p q s s') (ht : p.branches.Within s₀ t.branches) :
    Workspace.SameReadings ⟨s, t⟩ ⟨s', (p.exchange q).scope t⟩ where
  uninterpreted := h.uninterpreted.get_eq _ ht.uninterpreted
  userFunctions := h.userFunctions.get_eq _ ht.userFunctions
  definitions := h.definitions.get_eq _ ht.definitions
  axioms := h.axioms.get_eq _ ht.axioms
  tableId := h.tableIds.get_eq _ ht.tableIds
  arrayId := h.arrayIds.get_eq _ ht.arrayIds

theorem Exchanged.sessionAfter (h : Exchanged s₀ p q s s') (ht : p.branches.Within s₀ t.branches)
    (o : Operation) :
    Exchanged s₀ p q (o.sessionAfter ⟨s, t⟩)
      ((o.map (p.exchange q).value).sessionAfter ⟨s', (p.exchange q).scope t⟩) := by
  cases o with
  | apply name result args =>
    have hreads := h.sameReadings ht
    have hsig : Workspace.signature? ⟨s', (p.exchange q).scope t⟩ name =
        Workspace.signature? ⟨s, t⟩ name := by
      rw [Workspace.signature?, Workspace.signature?, hreads.userFunctions, hreads.uninterpreted]
    simp only [Operation.map, Operation.sessionAfter, hsig, Renaming.map_kind_value]
    rcases Workspace.signature? ⟨s, t⟩ name with _ | sig
    · exact { h with uninterpreted := h.uninterpreted.update _ _ }
    · exact h
  | lookup entries index fallback =>
    simp only [Operation.map, Operation.sessionAfter, Renaming.needsTable_map]
    split_ifs
    · exact { h with tableIds := h.tableIds.update _ _ }
    · exact h
  | newArray name key value => exact { h with arrayIds := h.arrayIds.update _ _ }
  | registerDefinition sig d =>
    exact { h with
      userFunctions := h.userFunctions.update _ _
      definitions := h.definitions.update _ _ }
  | addAxiom text => exact { h with axioms := h.axioms.update _ _ }
  | forgetUninterpreted name => exact { h with uninterpreted := h.uninterpreted.update _ _ }
  | _ => exact h

/-- What is derived from a scope in one run is derived from the other scope in the other. -/
theorem Exchanged.derive (h : Exchanged s₀ p q s s') (ht : p.branches.Within s₀ t.branches)
    (level : Nat) (policy : Scope.Field → Scope.Policy) :
    (s'.derive ((p.exchange q).scope t) level policy).1 =
        (p.exchange q).scope (s.derive t level policy).1 ∧
      Exchanged s₀ p q (s.derive t level policy).2
        (s'.derive ((p.exchange q).scope t) level policy).2 := by
  have hnumber : s'.scopes = Equiv.swap p.number q.number s.scopes := by
    rw [Equiv.swap_apply_of_ne_of_ne (Nat.ne_of_gt h.left) (Nat.ne_of_gt h.right), h.scopes]
  have hu := h.uninterpreted.inherit ht.uninterpreted (policy .uninterpreted)
  have hf := h.userFunctions.inherit ht.userFunctions (policy .userFunctions)
  have hd := h.definitions.inherit ht.definitions (policy .definitions)
  have ha := h.axioms.inherit ht.axioms (policy .axioms)
  have htab := h.tableIds.inherit ht.tableIds (policy .tableIds)
  have harr := h.arrayIds.inherit ht.arrayIds (policy .arrayIds)
  have hbranches : (s'.derive ((p.exchange q).scope t) level policy).1.branches =
      p.branches.exchange q.branches (s.derive t level policy).1.branches :=
    (BranchIds.mk.injEq ..).mpr ⟨hu.1, hf.1, hd.1, ha.1, htab.1, harr.1⟩
  have hchild : (s'.derive ((p.exchange q).scope t) level policy).1 =
      { (s.derive t level policy).1 with
        number := s'.scopes
        branches := (s'.derive ((p.exchange q).scope t) level policy).1.branches } := rfl
  refine ⟨?_, ?_⟩
  · rw [hchild, hbranches, hnumber]
    rfl
  · exact ⟨h.left.trans (Nat.lt_succ_self _), h.right.trans (Nat.lt_succ_self _),
      congrArg (· + 1) h.scopes, hu.2, hf.2, hd.2, ha.2, htab.2, harr.2⟩

/-- An operation on the exchanged operands does the same in the exchanged scope. -/
theorem Exchanged.mirrors (h : Exchanged s₀ p q s s') (ht : p.branches.Within s₀ t.branches)
    (o : Operation) :
    (p.exchange q).Mirrors (Option.map (p.exchange q).value) (o.scopeStep ⟨s, t⟩)
      ((o.map (p.exchange q).value).scopeStep ⟨s', (p.exchange q).scope t⟩) t := by
  have hreads := h.sameReadings ht
  refine (Scope.exchange_lawful p q).mirrors_scopeStep trivial (fun name => ?_) hreads.tableId
    hreads.arrayId o
  rw [Workspace.signature?, Workspace.signature?, hreads.userFunctions, hreads.uninterpreted]

theorem Exchanged.answer (h : Exchanged s₀ p q s s') (ht : p.branches.Within s₀ t.branches)
    (o : Operation) :
    (o.map (p.exchange q).value).answer ⟨s', (p.exchange q).scope t⟩ =
      Except.mapBoth (Fault.map (p.exchange q).error) (Answer.map (p.exchange q).value)
        (o.answer ⟨s, t⟩) := by
  have hlawful := Scope.exchange_lawful p q
  have hnode {m m' : Build NodeId} (hm : (p.exchange q).Mirrors id m m' t) :
      (outcome m' ((p.exchange q).scope t)).1.map Answer.node =
        Except.mapBoth (Fault.map (p.exchange q).error) (Answer.map (p.exchange q).value)
          ((outcome m t).1.map .node) := by
    rw [hm.2.2]
    rcases (outcome m t).1 with f | n <;> rfl
  have hvalue : (outcome (o.map (p.exchange q).value).run ⟨s', (p.exchange q).scope t⟩).1.map
      (fun v? => v?.elim Answer.done .value) =
        Except.mapBoth (Fault.map (p.exchange q).error) (Answer.map (p.exchange q).value)
          ((outcome o.run ⟨s, t⟩).1.map fun v? => v?.elim .done .value) := by
    rw [Operation.outcome_run, Operation.outcome_run, (h.mirrors ht o).2.2]
    rcases (outcome (o.scopeStep ⟨s, t⟩) t).1 with f | _ | v <;> rfl
  cases o with
  | materialize v => exact hnode (hlawful.mirrors_materialize trivial v)
  | addOutput v => exact hnode (hlawful.mirrors_addOutput trivial v)
  | forgetUninterpreted name =>
    exact congrArg (fun table => Except.ok (Answer.signature (NameTable.find? table name)))
      (h.sameReadings ht).uninterpreted
  | _ => exact hvalue

end Exchanged

end Session

namespace Request

/-- The request to the scope of another number, on other operands. -/
def map (σ : Nat → Nat) (g : Value → Value) : Request → Request
  | operate i o => operate (σ i) (o.map g)
  | derive i level policy => derive (σ i) level policy

theorem scope_map (σ : Nat → Nat) (g : Value → Value) (r : Request) :
    (r.map σ g).scope = σ r.scope := by
  cases r <;> rfl

end Request

namespace World

/-- What an operation answers, if there is the scope. -/
def reply (w : World) : Request → Option (Except (Fault ValueError) Answer)
  | .operate i o => (w.scopes[i]?).map fun s => o.answer (w.workspace s)
  | .derive .. => none

def replies (w : World) : List Request → List (Option (Except (Fault ValueError) Answer))
  | [] => []
  | r :: rs => w.reply r :: (w.deed r.deed).replies rs

/-- Two runs from `w₀`, in which the scopes `p` and `q`, the `c`th and the `d`th, have changed
places; a scope that `w₀` does not have is the same in both, but for the exchanged numbers. -/
structure Exchanged (w₀ : World) (p q : Scope) (c d : Nat) (w w' : World) : Prop where
  left : c < w₀.scopes.length
  right : d < w₀.scopes.length
  length_eq : w'.scopes.length = w.scopes.length
  scopes : ∀ i, i = c ∨ w₀.scopes.length ≤ i →
    w'.scopes[Equiv.swap c d i]? = (w.scopes[i]?).map (p.exchange q).scope
  session : Session.Exchanged w₀.session p q w.session w'.session

section Exchanged

variable {w₀ w w' : World} {p q t : Scope} {c d i : Nat}

theorem Exchanged.operate (h : Exchanged w₀ p q c d w w') (hi : i = c ∨ w₀.scopes.length ≤ i)
    (hs : w.scopes[i]? = some t) (ht : p.branches.Within w₀.session t.branches) (o : Operation) :
    Exchanged w₀ p q c d (w.next (.call i o))
      (w'.next (.call (Equiv.swap c d i) (o.map (p.exchange q).value))) := by
  have hs' : w'.scopes[Equiv.swap c d i]? = some ((p.exchange q).scope t) := by
    rw [h.scopes i hi, hs]
    rfl
  have hstep := (h.session.mirrors ht o).2.2
  rw [next_call w o hs, next_call w' _ hs']
  refine ⟨h.left, h.right, ?_, fun j hj => ?_, h.session.sessionAfter ht o⟩
  · rw [List.length_set, List.length_set, h.length_eq]
  · by_cases hij : i = j
    · subst hij
      rw [List.getElem?_set_self (List.getElem?_eq_some_iff.1 hs).1,
        List.getElem?_set_self (List.getElem?_eq_some_iff.1 hs').1]
      exact congrArg (fun r => some r.2) hstep
    · rw [List.getElem?_set_ne hij,
        List.getElem?_set_ne ((Equiv.swap c d).injective.ne hij), h.scopes j hj]

theorem Exchanged.derived (h : Exchanged w₀ p q c d w w') (hw : w₀.scopes.length ≤ w.scopes.length)
    (ht : p.branches.Within w₀.session t.branches) (level : Nat)
    (policy : Scope.Field → Scope.Policy) :
    Exchanged w₀ p q c d (w.derived t level policy)
      (w'.derived ((p.exchange q).scope t) level policy) := by
  obtain ⟨hchild, hsession⟩ := h.session.derive ht level policy
  refine ⟨h.left, h.right, ?_, fun j hj => ?_, hsession⟩
  · rw [World.derived, World.derived, List.length_append, List.length_append, h.length_eq]
    rfl
  · have hswap (hj : w₀.scopes.length ≤ j) : Equiv.swap c d j = j :=
      Equiv.swap_apply_of_ne_of_ne (Nat.ne_of_gt (h.left.trans_le hj))
        (Nat.ne_of_gt (h.right.trans_le hj))
    rw [World.derived, World.derived, hchild]
    by_cases hlt : j < w.scopes.length
    · have hlt' : Equiv.swap c d j < w'.scopes.length := by
        rw [h.length_eq]
        rcases hj with rfl | hj
        · rw [Equiv.swap_apply_left]
          exact h.right.trans_le hw
        · rwa [hswap hj]
      rw [List.getElem?_append_left hlt', List.getElem?_append_left hlt, h.scopes j hj]
    · have hle : w.scopes.length ≤ j := Nat.not_lt.1 hlt
      rw [hswap (hw.trans hle), List.getElem?_append_right (h.length_eq ▸ hle),
        List.getElem?_append_right hle, h.length_eq]
      rcases j - w.scopes.length with _ | k <;> rfl

/-- A request and its counterpart are answered alike, and the runs go on alike. -/
theorem Exchanged.request (h : Exchanged w₀ p q c d w w') (hw : Confined w₀ c p.branches w)
    {r : Request} (hr : r.scope = c ∨ w₀.scopes.length ≤ r.scope) :
    w'.reply (r.map (Equiv.swap c d) (p.exchange q).value) =
        (w.reply r).map (Except.mapBoth (Fault.map (p.exchange q).error)
          (Answer.map (p.exchange q).value)) ∧
      Exchanged w₀ p q c d (w.deed r.deed)
        (w'.deed (r.map (Equiv.swap c d) (p.exchange q).value).deed) := by
  cases r with
  | operate i o =>
    have hscope := h.scopes i hr
    simp only [Request.map, reply]
    rcases hs : w.scopes[i]? with _ | t <;> rw [hs] at hscope
    · refine ⟨by rw [hscope]; rfl, ?_⟩
      have hstay : w.deed (Request.operate i o).deed = w := next_call_none w o hs
      have hstay' : w'.deed (Request.operate (Equiv.swap c d i) (o.map (p.exchange q).value)).deed =
          w' := next_call_none w' _ hscope
      rw [hstay, hstay']
      exact h
    · have ht := hw.within i t hr hs
      refine ⟨?_, h.operate hr hs ht o⟩
      rw [hscope]
      exact congrArg some (h.session.answer ht o)
  | derive i level policy =>
    have hscope := h.scopes i hr
    refine ⟨rfl, ?_⟩
    simp only [Request.map, Request.deed, deed]
    rcases hs : w.scopes[i]? with _ | t <;> rw [hs] at hscope
    · rw [hscope]
      exact h
    · rw [hscope]
      exact h.derived hw.length_le (hw.within i t hr hs) level policy

theorem Exchanged.requests (h : Exchanged w₀ p q c d w w') (hw : Confined w₀ c p.branches w)
    {rs : List Request} (hr : ∀ r ∈ rs, r.scope = c ∨ w₀.scopes.length ≤ r.scope) :
    w'.replies (rs.map (Request.map (Equiv.swap c d) (p.exchange q).value)) =
        (w.replies rs).map (Option.map (Except.mapBoth (Fault.map (p.exchange q).error)
          (Answer.map (p.exchange q).value))) ∧
      Exchanged w₀ p q c d (w.requests rs)
        (w'.requests (rs.map (Request.map (Equiv.swap c d) (p.exchange q).value))) := by
  induction rs generalizing w w' with
  | nil => exact ⟨rfl, h⟩
  | cons r rs ih =>
    rw [List.forall_mem_cons] at hr
    obtain ⟨hreply, hnext⟩ := h.request hw hr.1
    obtain ⟨hreplies, hend⟩ := ih hnext (hw.request hr.1) hr.2
    refine ⟨?_, hend⟩
    rw [List.map_cons, replies, replies, List.map_cons, hreply, hreplies]

end Exchanged

section Snapshots

variable {w : World} {c : Nat} {s : Scope}

/-- A copy of the scope, in branches of its own. -/
def snapshot (w : World) (s : Scope) : World := w.derived s s.level fun _ => .snapshot

/-- The copy that is made. -/
def copy (w : World) (s : Scope) : Scope := (w.session.derive s s.level fun _ => .snapshot).1

theorem copy_eq (w : World) (s : Scope) : w.copy s = (s.exchange (w.copy s)).scope s := by
  have hcopy : w.copy s =
      { s with number := (w.copy s).number, branches := (w.copy s).branches } := rfl
  rw [hcopy]
  simp only [Scope.exchange, BranchIds.exchange, Equiv.swap_apply_left]

theorem snapshot_session (hw : (w.workspace s).Rooted) (hn : s.number < w.session.scopes) :
    Session.Exchanged (w.snapshot s).session s (w.copy s) (w.snapshot s).session
      (w.snapshot s).session where
  left := hn.trans (Nat.lt_succ_self _)
  right := Nat.lt_succ_self _
  scopes := rfl
  uninterpreted := Branches.exchanged_snapshot hw.uninterpreted
  userFunctions := Branches.exchanged_snapshot hw.userFunctions
  definitions := Branches.exchanged_snapshot hw.definitions
  axioms := Branches.exchanged_snapshot hw.axioms
  tableIds := Branches.exchanged_snapshot hw.tableIds
  arrayIds := Branches.exchanged_snapshot hw.arrayIds

theorem snapshot_apart (hw : (w.workspace s).Rooted) : s.branches.Apart (w.copy s).branches where
  uninterpreted := Nat.ne_of_gt hw.uninterpreted
  userFunctions := Nat.ne_of_gt hw.userFunctions
  definitions := Nat.ne_of_gt hw.definitions
  axioms := Nat.ne_of_gt hw.axioms
  tableIds := Nat.ne_of_gt hw.tableIds
  arrayIds := Nat.ne_of_gt hw.arrayIds

theorem snapshot_exchanged (hw : (w.workspace s).Rooted) (hn : s.number < w.session.scopes)
    (hs : w.scopes[c]? = some s) :
    Exchanged (w.snapshot s) s (w.copy s) c w.scopes.length (w.snapshot s) (w.snapshot s) := by
  have hc : c < w.scopes.length := (List.getElem?_eq_some_iff.1 hs).1
  have hscopes : (w.snapshot s).scopes = w.scopes ++ [w.copy s] := rfl
  have hlength : (w.snapshot s).scopes.length = w.scopes.length + 1 := by simp [hscopes]
  refine ⟨by omega, by omega, rfl, fun i hi => ?_, snapshot_session hw hn⟩
  rcases hi with rfl | hi
  · rw [Equiv.swap_apply_left, hscopes, List.getElem?_append_left hc, hs,
      List.getElem?_append_right (Nat.le_refl _), Nat.sub_self]
    exact congrArg some (w.copy_eq s)
  · rw [Equiv.swap_apply_of_ne_of_ne (by omega) (by omega), List.getElem?_eq_none hi]
    rfl

end Snapshots

end World

namespace Workspace

/-- The scope is the other one but for its number and its branches, and it sees the same. -/
structure Twins (ρ : Renaming) (w w' : Workspace) : Prop extends w.SameReadings w' where
  scope : w'.scope =
    { w.scope with number := ρ.owner w.scope.number, branches := w'.scope.branches }

variable {ρ : Renaming} {w w' : Workspace}

theorem Twins.finish (h : Twins ρ w w') : w'.scope.finish = w.scope.finish := by
  rw [h.scope]
  rfl

theorem Twins.declarations (h : Twins ρ w w') : w'.declarations = w.declarations := by
  have hconfig : w'.scope.config = w.scope.config := by rw [h.scope]
  rw [Workspace.declarations, Workspace.declarations, hconfig, h.definitions, h.uninterpreted,
    h.axioms]

end Workspace

namespace World

/-- The `c`th scope of `w` and the scopes behind the `d`th have twins in `w'`: the `d`th is that of
the `c`th, the others have their own places. The next scope will have the same number. -/
structure Corresponds (ρ : Renaming) (c d : Nat) (w w' : World) : Prop where
  numbered : w'.session.scopes = w.session.scopes
  length_eq : w'.scopes.length = w.scopes.length
  twins : ∀ i t, i = c ∨ d < i → w.scopes[i]? = some t →
    ∃ t', w'.scopes[Equiv.swap c d i]? = some t' ∧ (w.workspace t).Twins ρ (w'.workspace t')

/-- Whatever was done in a session before: a copy of a scope by snapshots, and scopes derived from
the copy in turn, answer all requests as the scope and those derived from it answer the same ones,
and end in the same state, but for the numbers of the two scopes; and whatever is asked of the one,
the other stays as it is, with all that it sees. -/
theorem snapshot_faithful {before : List Deed} {w : World} (hw : w = empty.deeds before) {c : Nat}
    {s : Scope} (hs : w.scopes[c]? = some s) {both : World} (hboth : both = w.snapshot s)
    {rs rs' : List Request} (hrs : ∀ r ∈ rs, r.scope = c ∨ w.scopes.length < r.scope)
    {ρ : Renaming} (hρ : ρ = .exchange s.number w.session.scopes)
    (hrs' : rs' = rs.map (Request.map (Equiv.swap c w.scopes.length) ρ.value)) :
    both.replies rs' = (both.replies rs).map
        (Option.map (Except.mapBoth (Fault.map ρ.error) (Answer.map ρ.value))) ∧
      Corresponds ρ c w.scopes.length (both.requests rs) (both.requests rs') ∧
      both.Untouched (both.requests rs) w.scopes.length ∧
      both.Untouched (both.requests rs') c := by
  have hrooted : w.Rooted := hw ▸ deeds_rooted empty_rooted before
  have hnumbered : w.Numbered := hw ▸ deeds_numbered empty_numbered before
  have hmem := List.mem_of_getElem? hs
  have hc : c < w.scopes.length := (List.getElem?_eq_some_iff.1 hs).1
  have hscopes : both.scopes = w.scopes ++ [w.copy s] := congrArg World.scopes hboth
  have hlength : both.scopes.length = w.scopes.length + 1 := by simp [hscopes]
  have hs₁ : both.scopes[c]? = some s := by rw [hscopes, List.getElem?_append_left hc, hs]
  have hcopy : both.scopes[w.scopes.length]? = some (w.copy s) := by simp [hscopes]
  have hrooted₁ : both.Rooted := by
    have hdeed := deed_rooted hrooted (.derive c s.level fun _ => .snapshot)
    simp only [deed, hs] at hdeed
    exact hboth ▸ hdeed
  -- The copy changes nothing if it is exchanged with the scope: both runs start from one world.
  have hboth' : Exchanged both s (w.copy s) c w.scopes.length both both :=
    hboth ▸ snapshot_exchanged (hrooted s hmem) (hnumbered s hmem) hs
  have hon : ∀ r ∈ rs, r.scope = c ∨ both.scopes.length ≤ r.scope := hlength ▸ hrs
  have hon' : ∀ r ∈ rs', r.scope = w.scopes.length ∨ both.scopes.length ≤ r.scope := by
    rw [hrs']
    refine List.forall_mem_map.2 fun r hr => ?_
    rw [Request.scope_map]
    rcases hrs r hr with hrc | hrc
    · exact .inl (by rw [hrc, Equiv.swap_apply_left])
    · exact .inr (by rw [Equiv.swap_apply_of_ne_of_ne (by omega) (by omega)]; omega)
  have hconfined := (Confined.refl hs₁).requests hon
  have hconfined' := (Confined.refl hcopy).requests hon'
  obtain ⟨hreplies, hend⟩ := hboth'.requests (.refl hs₁) hon
  have hapart := snapshot_apart (hrooted s hmem)
  obtain rfl : ρ = (s.exchange (w.copy s)).toRenaming := hρ
  subst hrs'
  refine ⟨hreplies, ⟨hend.session.scopes, hend.length_eq, fun i t hi ht => ?_⟩,
    hconfined.untouched hrooted₁ (by omega) (by omega) hcopy hapart,
    hconfined'.untouched hrooted₁ (by omega) (by omega) hs₁ hapart.symm⟩
  have hi' : i = c ∨ both.scopes.length ≤ i := hlength ▸ hi
  refine ⟨_, by rw [hend.scopes i hi', ht]; rfl, ?_⟩
  exact { hend.session.sameReadings (hconfined.within i t hi' ht) with scope := rfl }

/-- A function of an input and its negation, an axiom by way of a derived scope that shares the
axioms, an array, and the node of a value of the copy, which is foreign. -/
def askOriginal : List Request :=
  [.operate 0 (.apply "f" .bool [.symbolic 2 (.unsigned 4) 0]),
    .operate 0 (.primitive (.not (.symbolic 4 .bool 0))), .derive 0 1 fun _ => .share,
    .operate 2 (.addAxiom "(assert true)"), .operate 0 (.newArray "a" .int .bool),
    .operate 0 (.materialize (.symbolic 2 (.unsigned 4) 1))]

def askCopy : List Request :=
  askOriginal.map (Request.map (Equiv.swap 0 1) (Renaming.exchange 0 1).value)

theorem snapshot_faithful_askOriginal :
    ∃ s both, (empty.deeds twoInputs).scopes[0]? = some s ∧
      both = (empty.deeds twoInputs).snapshot s ∧
      both.replies askCopy =
        [some (.ok (.value (.symbolic 4 .bool 1))), some (.ok (.value (.symbolic 5 .bool 1))), none,
          some (.ok .done), some (.ok (.value (.symbolic 6 (.array .int .bool) 1))),
          some (.error (.error (.foreignValue 2 0 1)))] ∧
      both.Untouched (both.requests askOriginal) 1 ∧ both.Untouched (both.requests askCopy) 0 := by
  obtain ⟨s, hs⟩ : ∃ s, (empty.deeds twoInputs).scopes[0]? = some s := ⟨_, rfl⟩
  have hnumber : s.number = 0 := by
    cases hs
    rfl
  have hρ : Renaming.exchange 0 1 =
      .exchange s.number (empty.deeds twoInputs).session.scopes := by
    rw [hnumber]
    rfl
  have hrs : ∀ r ∈ askOriginal,
      r.scope = 0 ∨ (empty.deeds twoInputs).scopes.length < r.scope := by decide
  have hrs' : askCopy = askOriginal.map
      (Request.map (Equiv.swap 0 (empty.deeds twoInputs).scopes.length)
        (Renaming.exchange 0 1).value) := rfl
  obtain ⟨hreplies, -, horiginal, hcopy⟩ := snapshot_faithful rfl hs rfl hrs hρ hrs'
  refine ⟨s, _, hs, rfl, hreplies.trans ?_, horiginal, hcopy⟩
  cases hs
  rfl

end World

end SmtLowering
