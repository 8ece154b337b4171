import SmtLowering.Proofs.Records

/-!
# Tables

A table stands before the nodes that read it, and its entries are nodes before these
(`Scope.Tabled`). A look-up finds the table that it has recorded under its number, as the number is
new to the scope: it comes from a counter, of which each scope of a world stays below
(`World.Reachable.tabled`).
-/

namespace SmtLowering

namespace Scope

variable {s t : Scope}

/-- The table of a number. -/
def table? (s : Scope) (id : Nat) : Option Table := s.tables.find? (·.id = id)

/-- Tables hold nodes of the scope, and what reads one comes after what it holds. -/
structure Tabled (s : Scope) : Prop where
  entries_lt : ∀ t ∈ s.tables, ∀ m ∈ t.entries, m < s.nodeCount
  reads : ∀ p ∈ s.assignments, ∀ id, p.2.op = .table id →
    ∃ t, s.table? id = some t ∧ ∀ m ∈ t.entries, m < p.1

/-- An arena with its tables. -/
structure Readable (s : Scope) : Prop where
  arena : s.Arena
  tabled : s.Tabled

theorem Grows.table? (h : s.Grows t) {id : Nat} {r : Table} (hr : s.table? id = some r) :
    t.table? id = some r := by
  obtain ⟨rest, ht⟩ := h.tables
  rw [Scope.table?, ← ht, List.find?_append, show s.tables.find? _ = _ from hr, Option.some_or]

theorem table?_eq_none {id : Nat} : s.table? id = none ↔ ∀ r ∈ s.tables, r.id ≠ id := by
  simp [table?, List.find?_eq_none]

theorem mem_of_table? {id : Nat} {r : Table} (h : s.table? id = some r) : r ∈ s.tables :=
  List.mem_of_find?_eq_some h

section Recording

theorem Tabled.congr (h : s.Tabled) (hn : s.nodeCount ≤ t.nodeCount) (ht : t.tables = s.tables)
    (ha : t.assignments = s.assignments) : t.Tabled where
  entries_lt := by
    rw [ht]
    exact fun r hr m hm => Nat.lt_of_lt_of_le (h.entries_lt r hr m hm) hn
  reads := by
    unfold Scope.table?
    rw [ht, ha]
    exact h.reads

theorem Tabled.constant (h : s.Tabled) (c : Literal) : (s.constant c).2.Tabled := by
  refine h.congr (constant_grows s c).nodeCount_le ?_ ?_ <;>
    rcases hl : s.constIds.lookup c with _ | n
  · rw [constant_of_lookup_none hl]
  · rw [constant_of_lookup hl]
  · rw [constant_of_lookup_none hl]
  · rw [constant_of_lookup hl]

theorem Tabled.addInput (h : s.Tabled) (role : InputRole) (name : String) (k : Kind) :
    (s.addInput role name k).Tabled :=
  h.congr (addInput_grows s role name k).nodeCount_le rfl rfl

theorem Tabled.intern (h : s.Tabled) {e : Expr}
    (he : ∀ id, e.op = .table id → ∃ t, s.table? id = some t) (k : Kind) :
    (s.intern e k).2.Tabled := by
  have hg := intern_grows s e k
  rcases hl : s.exprIds.lookup e with _ | n
  · rw [intern_of_lookup_none hl] at hg ⊢
    refine ⟨fun r hr m hm => Nat.lt_of_lt_of_le (h.entries_lt r hr m hm) hg.nodeCount_le,
      fun p hp id hid => ?_⟩
    rcases List.mem_append.1 hp with hp | hp
    · exact h.reads p hp id hid
    · rw [List.mem_singleton] at hp
      subst hp
      obtain ⟨r, hr⟩ := he id hid
      exact ⟨r, hr, h.entries_lt r (mem_of_table? hr)⟩
  · rw [intern_of_lookup hl]
    exact h

/-- A table of a new number over nodes of the scope. -/
theorem Tabled.table (h : s.Tabled) {r : Table} (hr : s.table? r.id = none)
    (hn : ∀ m ∈ r.entries, m < s.nodeCount) :
    ({ s with tables := s.tables ++ [r] } : Scope).Tabled ∧
      ({ s with tables := s.tables ++ [r] } : Scope).table? r.id = some r := by
  have hg : s.Grows { s with tables := s.tables ++ [r] } :=
    { Grows.refl s with tables := List.prefix_append _ _ }
  refine ⟨⟨fun r' hr' => ?_, fun p hp id hid => ?_⟩, ?_⟩
  · rcases List.mem_append.1 hr' with hr' | hr'
    · exact h.entries_lt r' hr'
    · rw [List.mem_singleton] at hr'
      exact hr' ▸ hn
  · obtain ⟨r', hr', hlt⟩ := h.reads p hp id hid
    exact ⟨r', hg.table? hr', hlt⟩
  · rw [Scope.table?, List.find?_append, show s.tables.find? _ = _ from hr, Option.none_or]
    simp

end Recording

theorem Readable.constant (h : s.Readable) (c : Literal) : (s.constant c).2.Readable :=
  ⟨h.arena.constant c, h.tabled.constant c⟩

theorem Readable.intern (h : s.Readable) {e : Expr} (ha : ∀ a ∈ e.args, a < s.nodeCount)
    (he : ∀ id, e.op = .table id → ∃ t, s.table? id = some t) (k : Kind) :
    (s.intern e k).2.Readable :=
  ⟨h.arena.intern ha k, h.tabled.intern he k⟩

theorem blank_readable (number level : Nat) (config : Config) (branches : BranchIds) :
    (blank number level config branches).Readable := by
  refine ⟨blank_arena _ _ _ _, ?_⟩
  rw [blank_eq]
  exact ⟨nofun, nofun⟩

/-- The value is the node that reads the table of the number, whose entries, index and fallback
stand for these. -/
def Reads (s : Scope) (id : Nat) (entries : List Value) (index fallback v : Value) : Prop :=
  ∃ ns i d n, s.table? id = some ⟨id, index.kind, fallback.kind, ns⟩ ∧
    List.Forall₂ s.NodeOf entries ns ∧ s.NodeOf index i ∧ s.NodeOf fallback d ∧
    v = .symbolic n fallback.kind s.number ∧ (n, ⟨.table id, index.kind, [i, d]⟩) ∈ s.assignments

end Scope

namespace Build

open Scope

variable {s : Scope}

/-- The nodes of a table's entries; the scope has the tables that it had. -/
theorem keeps_entries {entries : List Value} (h : s.Readable) (he : ∀ v ∈ entries, s.Admits v) :
    Keeps Readable (entries.mapM materialize) s fun ns t =>
      t.tables = s.tables ∧ List.Forall₂ t.NodeOf entries ns := by
  have hI (t : Scope) (ht : t.Readable ∧ t.tables = s.tables) (c : Literal) :
      (t.constant c).2.Readable ∧ (t.constant c).2.tables = s.tables := by
    refine ⟨ht.1.constant c, ?_⟩
    rw [← ht.2]
    rcases hl : t.constIds.lookup c with _ | n
    · rw [constant_of_lookup_none hl]
    · rw [constant_of_lookup hl]
  exact (Build.keeps_materializeAll (I := fun t => t.Readable ∧ t.tables = s.tables)
    (fun t ht => ht.1.arena) ⟨h, rfl⟩ he fun c _ t _ ht => hI t ht c).imp (fun t ht => ht.1)
    fun ns t _ ht hns => ⟨ht.2, hns⟩

/-- The node of an operator that reads no table. -/
theorem keeps_interned (h : s.Readable) {op : Op} {domain k : Kind} {vs : List Value}
    (hv : ∀ v ∈ vs, s.Admits v) (hop : ∀ id, op ≠ .table id) :
    Keeps Readable (Plan.node op domain vs k).exec s fun v t =>
      ∃ ns n, v = .symbolic n k t.number ∧ List.Forall₂ t.NodeOf vs ns ∧
        (n, ⟨op, domain, ns⟩) ∈ t.assignments := by
  refine (keeps_materializeAll (fun _ => Readable.arena) h hv
    fun c _ t _ ht => ht.constant c).bind fun ns t _ ht hns => ?_
  have hg := intern_grows t ⟨op, domain, ns⟩ k
  refine ⟨hg, ht.intern (ht.arena.nodesOf_lt hns) (fun id hid => (hop id hid).elim) k,
    fun v hv => ?_⟩
  cases hv
  obtain ⟨n, hn, hm⟩ := ht.arena.intern_mem ⟨op, domain, ns⟩ k
  exact ⟨ns, n, hn.trans (congrArg (Value.symbolic n k) hg.number.symm), hg.nodesOf hns, hm⟩

variable {id : Nat} {entries : List Value} {index fallback : Value}

/-- The node that reads a table which is there. -/
theorem keeps_read (h : s.Readable) {ns : List NodeId}
    (hr : s.table? id = some ⟨id, index.kind, fallback.kind, ns⟩)
    (hns : List.Forall₂ s.NodeOf entries ns) (hi : s.Admits index) (hd : s.Admits fallback) :
    Keeps Readable
      (do
        let i ← materialize index
        let d ← materialize fallback
        intern ⟨.table id, index.kind, [i, d]⟩ fallback.kind) s
      fun v t => t.Reads id entries index fallback v := by
  refine (keeps_materialize (fun _ => Readable.arena) h hi fun c _ => h.constant c).bind
    fun i t ht htr hni => ?_
  refine (keeps_materialize (fun _ => Readable.arena) htr (ht.admits hd)
    fun c _ => htr.constant c).bind fun d u hu hur hnd => ?_
  have hnodes : List.Forall₂ u.NodeOf [index, fallback] [i, d] :=
    .cons (hu.nodeOf hni) (.cons hnd .nil)
  have hread := hu.table? (ht.table? hr)
  have hg := intern_grows u ⟨.table id, index.kind, [i, d]⟩ fallback.kind
  refine ⟨hg, hur.intern (hur.arena.nodesOf_lt hnodes) (fun id' hid => ?_) _, fun v hv => ?_⟩
  · cases hid
    exact ⟨_, hread⟩
  · cases hv
    obtain ⟨n, hn, hm⟩ := hur.arena.intern_mem ⟨.table id, index.kind, [i, d]⟩ fallback.kind
    exact ⟨ns, i, d, n, hg.table? hread, ((ht.trans hu).trans hg).nodesOf hns,
      hg.nodeOf (hu.nodeOf hni), hg.nodeOf hnd,
      hn.trans (congrArg (Value.symbolic n fallback.kind) hg.number.symm), hm⟩

theorem keeps_tabulate (h : s.Readable) (hid : s.table? id = none)
    (he : ∀ v ∈ entries, s.Admits v) (hi : s.Admits index) (hd : s.Admits fallback) :
    Keeps Readable (tabulate id entries index fallback) s fun v t =>
      t.Reads id entries index fallback v := by
  refine (keeps_entries h he).bind fun ns t hg ht hns => ?_
  have hnew : t.table? id = none := by
    rw [Scope.table?, hns.1]
    exact hid
  obtain ⟨htabled, hfound⟩ := ht.tabled.table (r := ⟨id, index.kind, fallback.kind, ns⟩) hnew
    (ht.arena.nodesOf_lt hns.2)
  have hg' : t.Grows { t with tables := t.tables ++ [⟨id, index.kind, fallback.kind, ns⟩] } :=
    { Grows.refl t with tables := List.prefix_append _ _ }
  refine (keeps_modify (P := fun _ u => u.table? id = some ⟨id, index.kind, fallback.kind, ns⟩)
    hg' ⟨ht.arena.artifacts _ _ _ _ _ _ _, htabled⟩ hfound).bind fun _ u hu hur hr => ?_
  exact keeps_read hur hr (hu.nodesOf hns.2) ((hg.trans hu).admits hi) ((hg.trans hu).admits hd)

/-- A look-up answers from its operands, or by a node that reads its table. -/
theorem keeps_lookup (h : s.Readable) (hid : s.table? id = none)
    (he : ∀ v ∈ entries, s.Admits v) (hi : s.Admits index) (hd : s.Admits fallback) :
    Keeps Readable (lookupAt id entries index fallback) s fun v t =>
      ((index.kind.isBitVec || index.kind = .int) = true ∧ ∀ u ∈ entries, u.kind = fallback.kind) ∧
        (∀ i, index.asInt? = some i →
          v = if 0 ≤ i then entries.getD i.toNat fallback else fallback) ∧
        (index.asInt? = none → t.Reads id entries index fallback v) := by
  refine (keeps_require h _ _ _).bind fun _ t _ ht hts => ?_
  obtain ⟨rfl, hk⟩ := hts
  split
  · exact keeps_throw ht _
  · next hfind =>
    have hkinds : ∀ u ∈ entries, u.kind = fallback.kind := by
      simpa [List.find?_eq_none] using hfind
    split
    · next i hindex =>
      refine keeps_pure ht ⟨⟨hk, hkinds⟩, fun j hj => ?_, fun hn => ?_⟩
      · rw [hindex] at hj
        rw [Option.some.inj hj]
      · rw [hindex] at hn
        cases hn
    · next hindex =>
      refine (keeps_tabulate ht hid he hi hd).imp (fun _ h => h) fun v u _ _ hr => ?_
      refine ⟨⟨hk, hkinds⟩, fun j hj => ?_, fun _ => hr⟩
      rw [hindex] at hj
      cases hj

end Build

namespace Operation

variable {o : Operation} {w : Workspace}

/-- Tables are recorded and read by look-ups alone. -/
theorem stable_tabled (ho : ∀ entries index fallback, o ≠ .lookup entries index fallback) :
    o.Stable w Scope.Tabled where
  constant c h := h.constant c
  intern e k he h := by
    refine h.intern (fun id hid => ?_) k
    rw [hid] at he
    obtain ⟨entries, index, fallback, rfl⟩ := he
    exact (ho _ _ _ rfl).elim
  addInput role name k h := h.addInput role name k
  table _ h := (ho _ _ _ h).elim
  artifacts _ _ _ _ _ _ h := h.congr (Nat.le_refl _) rfl rfl

/-- The numbers of tables stay below what is above the next one. -/
theorem stable_below {bound : Nat} (hb : ∀ entries index fallback,
    o = .lookup entries index fallback → needsTable entries index fallback = true →
      w.takeTableId.1 < bound) : o.Stable w fun s => ∀ r ∈ s.tables, r.id < bound where
  constant {s} c h := by
    rcases hl : s.constIds.lookup c with _ | n
    · rw [Scope.constant_of_lookup_none hl]
      exact h
    · rw [Scope.constant_of_lookup hl]
      exact h
  intern {s} e k _ h := by
    rcases hl : s.exprIds.lookup e with _ | n
    · rw [Scope.intern_of_lookup_none hl]
      exact h
    · rw [Scope.intern_of_lookup hl]
      exact h
  addInput _ _ _ h := h
  table ns ho hn h r hr := by
    rcases List.mem_append.1 hr with hr | hr
    · exact h r hr
    · rw [List.mem_singleton] at hr
      subst hr
      exact hb _ _ _ ho hn
  artifacts _ _ _ _ _ _ h := h

/-- An operation gives out the next number, if it needs a table, or none. -/
theorem sessionAfter_tableIds (o : Operation) (w : Workspace) :
    ((o.sessionAfter w).tableIds = w.session.tableIds ∧
        ∀ entries index fallback, o = .lookup entries index fallback →
          needsTable entries index fallback = false) ∨
      (o.sessionAfter w).tableIds =
        w.session.tableIds.update w.scope.branches.tableIds (· + 1) := by
  cases o with
  | apply name result args =>
    simp only [sessionAfter]
    cases w.signature? name <;> exact .inl ⟨rfl, fun _ _ _ h => by cases h⟩
  | lookup entries index fallback =>
    simp only [sessionAfter]
    split_ifs with hn
    · exact .inr rfl
    · refine .inl ⟨rfl, fun _ _ _ h => ?_⟩
      cases h
      simpa using hn
  | _ => exact .inl ⟨rfl, fun _ _ _ h => by cases h⟩

end Operation

section Counters

/-- No counter has gone back. -/
structure Branches.AtMost (bs bs' : Branches Nat) : Prop where
  length_le : bs.contents.length ≤ bs'.contents.length
  get_le : ∀ i < bs.contents.length, bs.get i ≤ bs'.get i

variable {bs : Branches Nat}

theorem Branches.AtMost.refl (bs : Branches Nat) : bs.AtMost bs :=
  ⟨Nat.le_refl _, fun _ _ => Nat.le_refl _⟩

theorem Branches.atMost_add (n : Nat) : bs.AtMost (bs.add n).2 where
  length_le := by simp [add]
  get_le i hi := Nat.le_of_eq (get_add_of_lt n hi).symm

theorem Branches.atMost_update (i : Nat) : bs.AtMost (bs.update i (· + 1)) where
  length_le := Nat.le_of_eq (bs.length_update i _).symm
  get_le j hj := by
    by_cases hji : j = i
    · subst hji
      rw [get_update_self _ hj]
      exact Nat.le_succ _
    · exact Nat.le_of_eq ((framed_update i _).get_eq j hj hji).symm

theorem Operation.sessionAfter_atMost (o : Operation) (w : Workspace) :
    w.session.tableIds.AtMost (o.sessionAfter w).tableIds := by
  rcases o.sessionAfter_tableIds w with ⟨h, -⟩ | h <;> rw [h]
  · exact .refl _
  · exact Branches.atMost_update _

theorem Session.fork_tableIds {s s' : Session} {parent child : Scope} {purpose : Purpose}
    (h : s.fork parent purpose = .ok (child, s')) :
    s'.tableIds = s.tableIds ∧ child.branches.tableIds = parent.branches.tableIds := by
  unfold Session.fork at h
  split_ifs at h
  obtain ⟨rfl, rfl⟩ := Prod.mk.inj (Except.ok.inj h)
  cases purpose <;> exact ⟨rfl, rfl⟩

/-- The scope's counter is ahead of the numbers of its tables. -/
structure Scope.Counted (s : Scope) (counters : Branches Nat) : Prop where
  branch : s.branches.tableIds < counters.contents.length
  below : ∀ r ∈ s.tables, r.id < counters.get s.branches.tableIds

theorem Scope.Counted.mono {s : Scope} {counters counters' : Branches Nat}
    (h : s.Counted counters) (hc : counters.AtMost counters') : s.Counted counters' where
  branch := Nat.lt_of_lt_of_le h.branch hc.length_le
  below r hr := Nat.lt_of_lt_of_le (h.below r hr) (hc.get_le _ h.branch)

theorem Scope.counted_blank {number level : Nat} {config : Config} {branches : BranchIds}
    {counters : Branches Nat} (h : branches.tableIds < counters.contents.length) :
    (blank number level config branches).Counted counters := by
  rw [blank_eq]
  exact ⟨h, nofun⟩

end Counters

namespace World

/-- Tables are in order and numbered by counters that are ahead of them. -/
structure Tabled (w : World) : Prop where
  scopes : ∀ s ∈ w.scopes, s.Tabled
  counted : ∀ s ∈ w.scopes, s.Counted w.session.tableIds

variable {w : World}

theorem Tabled.opened (h : w.Tabled) {session : Session} {child : Scope}
    (hc : w.session.tableIds.AtMost session.tableIds) (htabled : child.Tabled)
    (hcounted : child.Counted session.tableIds) :
    Tabled ⟨session, w.scopes ++ [child], w.issued⟩ := by
  refine ⟨fun s hs => ?_, fun s hs => ?_⟩ <;> rcases List.mem_append.1 hs with hs | hs
  · exact h.scopes s hs
  · exact List.mem_singleton.1 hs ▸ htabled
  · exact (h.counted s hs).mono hc
  · exact List.mem_singleton.1 hs ▸ hcounted

section Called

variable {i : Nat} {s : Scope} {o : Operation}

/-- The number of the next table is new to the scope. -/
theorem Tabled.table?_next (h : w.Tabled) (hs : s ∈ w.scopes) :
    s.table? (w.workspace s).takeTableId.1 = none :=
  Scope.table?_eq_none.2 fun r hr => Nat.ne_of_lt ((h.counted s hs).below r hr)

theorem Reachable.admits (h : w.Reachable) (hs : w.scopes[i]? = some s)
    (hsup : w.Supplies (.call i o)) : ∀ v ∈ o.operands, s.Admits v := by
  intro v hv
  have hD := Discipline.recorded_lawful (fun _ => none) (· ∈ w.issued)
  refine hD.admits ?_
  cases v with
  | concrete c => trivial
  | symbolic n k number =>
    rcases hsup _ hv with hv | hv
    · cases hv
    · exact h.recorded.holds (List.mem_of_getElem? hs) hv

/-- What an operation leaves of the tables of its scope, also where it fails. -/
theorem Tabled.scopeStep (h : w.Tabled) (hw : w.Reachable) (hs : w.scopes[i]? = some s)
    (hsup : w.Supplies (.call i o)) : (outcome (o.scopeStep (w.workspace s)) s).2.Tabled := by
  have hmem := List.mem_of_getElem? hs
  have hadmits := hw.admits hs hsup
  by_cases ho : ∀ entries index fallback, o ≠ .lookup entries index fallback
  · exact ((Operation.stable_tabled ho).scopeStep (w := w.workspace s) (h.scopes s hmem)).2.1
  · simp only [ne_eq, not_forall, not_not] at ho
    obtain ⟨entries, index, fallback, rfl⟩ := ho
    have hreadable : s.Readable := ⟨(hw.recorded.scopes s hmem).arena, h.scopes s hmem⟩
    have hlookup := Build.keeps_lookup hreadable (h.table?_next hmem)
      (fun v hv => hadmits v (List.mem_append_left _ hv))
      (hadmits index (by simp [Operation.operands]))
      (hadmits fallback (by simp [Operation.operands]))
    exact (hlookup.map (f := some) (Q := fun _ _ => True) fun _ _ _ _ _ => trivial).2.1.tabled

theorem Tabled.counted_scopeStep (h : w.Tabled) (hs : w.scopes[i]? = some s) :
    (outcome (o.scopeStep (w.workspace s)) s).2.Counted
      (o.sessionAfter (w.workspace s)).tableIds := by
  have hcounted := h.counted s (List.mem_of_getElem? hs)
  have hmono := hcounted.mono (o.sessionAfter_atMost (w.workspace s))
  have hbound : ∀ entries index fallback, o = .lookup entries index fallback →
      Operation.needsTable entries index fallback = true → (w.workspace s).takeTableId.1 <
        (o.sessionAfter (w.workspace s)).tableIds.get s.branches.tableIds := by
    intro entries index fallback ho hn
    rcases o.sessionAfter_tableIds (w.workspace s) with ⟨-, hno⟩ | hids
    · rw [hno _ _ _ ho] at hn
      cases hn
    · rw [hids]
      exact Nat.lt_of_lt_of_eq (Nat.lt_succ_self _)
        (Branches.get_update_self _ hcounted.branch _).symm
  obtain ⟨hg, hbelow, -⟩ := (Operation.stable_below hbound).scopeStep hmono.below
  rw [← hg.branches] at hbelow
  exact ⟨hg.branches ▸ hmono.branch, hbelow⟩

theorem Tabled.call (h : w.Tabled) (hw : w.Reachable) (hs : w.scopes[i]? = some s)
    (hsup : w.Supplies (.call i o)) : (w.next (.call i o)).Tabled := by
  rw [w.next_call o hs]
  refine ⟨fun t ht => ?_, fun t ht => ?_⟩ <;> rcases List.mem_or_eq_of_mem_set ht with ht | rfl
  · exact h.scopes t ht
  · exact h.scopeStep hw hs hsup
  · exact (h.counted t ht).mono (o.sessionAfter_atMost (w.workspace s))
  · exact h.counted_scopeStep hs

end Called

/-- In a reachable world tables are in order, and the number of the next one is new. -/
theorem Reachable.tabled (h : w.Reachable) : w.Tabled := by
  induction h with
  | empty => exact ⟨nofun, nofun⟩
  | @next w e hw hsup ih =>
    cases e with
    | start config =>
      refine ih.opened (Branches.atMost_add 0) (Scope.blank_readable _ _ _ _).tabled
        (Scope.counted_blank ?_)
      simp
    | fork parent purpose =>
      simp only [World.next]
      rcases hp : w.scopes[parent]? with _ | s
      · exact ih
      · rcases fork_cases w.session s purpose with ⟨child, after, hf, hc, -⟩ | ⟨err, hf⟩
        · obtain ⟨hids, hbranch⟩ := Session.fork_tableIds hf
          have hlt := (ih.counted s (List.mem_of_getElem? hp)).branch
          rw [← hids, ← hbranch] at hlt
          simp only [hf]
          refine ih.opened (hids ▸ .refl _) ?_ ?_
          · rw [hc]
            exact (Scope.blank_readable _ _ _ _).tabled
          · rw [hc]
            exact Scope.counted_blank hlt
        · simp only [hf]
          exact ih
    | call i o =>
      rcases hs : w.scopes[i]? with _ | s
      · rw [w.next_call_none o hs]
        exact ih
      · exact ih.call hw hs hsup

theorem Reachable.readable (h : w.Reachable) {s : Scope} (hs : s ∈ w.scopes) : s.Readable :=
  ⟨(h.recorded.scopes s hs).arena, h.tabled.scopes s hs⟩

end World

end SmtLowering
