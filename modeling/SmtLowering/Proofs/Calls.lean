import SmtLowering.Proofs.Builders

/-!
# Meaning of results

What an operation computes of the values of its operands (`Valuation.meaning`): an operation on
values what its operator makes of them, a conjunction whether all hold, and a look-up the entry of
its index, or its fallback outside the entries. In a reachable world a result has that value
(`World.Reachable.value_call`), and what was issued before keeps its own
(`World.Reachable.value_next`).
-/

namespace SmtLowering

/-- The operations that compute a value from values. The choice between two is left out. -/
def Operation.computes : Operation → Bool
  | .primitive (.ite ..) => false
  | .primitive _ | .all _ | .lookup .. => true
  | _ => false

namespace Valuation

variable {U : Type} (V : Valuation U) (E : SmtSort → U → Prop) (s : Scope)

noncomputable def truth (v : Value) : Option Bool := (V.value s v).bind Datum.bool?

/-- The entry of the index's value among the entries' values. -/
noncomputable def lookup (entries : List Value) (index fallback : Value) : Option (Datum U) := do
  let es ← entries.mapM (V.value s)
  let i ← V.value s index
  let d ← V.value s fallback
  (i.index? index.kind).map (Datum.entryAt es d)

/-- What an operation computes. -/
noncomputable def meaning : Operation → Option (Datum U)
  | .primitive p => V.primitive s p
  | .all vs => (vs.mapM (V.truth s)).map fun bs => .bool (bs.all id)
  | .lookup entries index fallback => V.lookup s entries index fallback
  | _ => none

variable {V E s} {index fallback : Value} {entries : List Value}

/-- A primitive operation gives a sorted value, and its meaning unless it chooses. -/
theorem keeps_primitive (hI : V.interp.Respects E) (hs : s.Readable) {p : Primitive}
    (h : ∀ u ∈ p.operands, V.Sorted E s u) :
    Build.Keeps Scope.Readable p.plan.exec s fun v t =>
      V.Sorted E t v ∧ (V.interp.ComparesFloats → (∀ c t e, p ≠ .ite c t e) →
        V.value t v = V.primitive s p) :=
  (keeps_exec hI hs p.plan_within (p.plan_typed fun u hu => (h u hu).wellFormed) h).imp
    (fun _ h => h) fun _ _ _ _ hv => ⟨hv.1, fun hF hp => hv.2 _ (leads_plan hF p hp h)⟩

/-- A conjunction onto a truth value. -/
theorem keeps_all (hI : V.interp.Respects E) (hF : V.interp.ComparesFloats) (hs : s.Readable)
    {acc : Value} {x : Bool} (hacc : V.Sorted E s acc) (hk : acc.kind = .bool)
    (hx : V.value s acc = some (.bool x)) {vs : List Value} (h : ∀ u ∈ vs, V.Sorted E s u) :
    Build.Keeps Scope.Readable (vs.foldlM Build.and acc) s fun v t =>
      ∃ bs, vs.mapM (V.truth s) = some bs ∧ V.value t v = some (.bool (x && bs.all id)) ∧
        V.Sorted E t v := by
  induction vs generalizing acc s x with
  | nil =>
    refine Build.keeps_pure hs ⟨[], rfl, ?_, hacc⟩
    rw [hx, List.all_nil, Bool.and_true]
  | cons u vs ih =>
    have hu := h u List.mem_cons_self
    have hvs : ∀ w ∈ vs, V.Sorted E s w := fun w hw => h w (List.mem_cons_of_mem _ hw)
    have hstep := keeps_primitive hI hs (p := .and acc u) (by
      simp [Primitive.operands, hacc, hu])
    rw [List.foldlM_cons, ← Plan.exec_and]
    refine hstep.and_outcome.bind fun acc' t hg ht hacc' => ?_
    obtain ⟨⟨hsorted, hvalue⟩, hout⟩ := hacc'
    rw [Primitive.plan, Plan.exec_and] at hout
    obtain ⟨hku, hk', -⟩ := kind_of_and hk ⟨hacc.wellFormed, hu.wellFormed⟩ hout
    obtain ⟨y, hy⟩ := hu.truth hku
    have hkept : ∀ w ∈ vs, V.truth t w = V.truth s w := fun w hw => by
      rw [truth, truth, hg.value_eq hs ht ((hvs w hw).admits hs)]
    have hval : V.value t acc' = some (.bool (x && y)) :=
      (hvalue hF fun _ _ _ => Primitive.noConfusion).trans (apply_and hk hx hy)
    refine (ih ht hsorted hk' hval fun w hw => (hvs w hw).grows hs ht hg).imp (fun _ h => h)
      fun v r _ _ hv => ?_
    obtain ⟨bs, hbs, hvalue, hv⟩ := hv
    refine ⟨y :: bs, ?_, ?_, hv⟩
    · rw [mapM_congr hkept] at hbs
      rw [List.mapM_cons, truth, hy, hbs]
      rfl
    · rw [hvalue, List.all_cons, Bool.and_assoc]
      rfl

section Lookups

/-- Values of one kind have values of its sort. -/
theorem Sorted.alike {k : Kind} (h : ∀ u ∈ entries, V.Sorted E s u)
    (hk : ∀ u ∈ entries, u.kind = k) :
    ∃ es, entries.mapM (V.value s) = some es ∧ ∀ e ∈ es, e.OfSort E k.sort := by
  induction entries with
  | nil => exact ⟨[], rfl, List.forall_mem_nil _⟩
  | cons u us ih =>
    obtain ⟨e, he, hsort⟩ := (h u List.mem_cons_self).sort
    rw [hk u List.mem_cons_self] at hsort
    obtain ⟨es, hes, hsorts⟩ := ih (fun v hv => h v (List.mem_cons_of_mem _ hv))
      fun v hv => hk v (List.mem_cons_of_mem _ hv)
    refine ⟨e :: es, ?_, List.forall_mem_cons.2 ⟨hsort, hsorts⟩⟩
    rw [List.mapM_cons, he, hes]
    rfl

theorem Sorted.indexed (hi : V.Sorted E s index)
    (hk : (index.kind.isBitVec || index.kind = .int) = true) :
    ∃ x j, V.value s index = some x ∧ x.index? index.kind = some j := by
  obtain ⟨x, hx, hsort⟩ := hi.sort
  refine ⟨x, ?_⟩
  cases hkind : index.kind with
  | bitVec signed n =>
    rw [hkind] at hsort
    obtain ⟨y, rfl⟩ := hsort.isWord
    exact ⟨_, hx, rfl⟩
  | int =>
    rw [hkind] at hsort
    cases hsort
    exact ⟨_, hx, rfl⟩
  | _ => simp [hkind, Kind.isBitVec] at hk

/-- A literal index is read as its payload. -/
theorem Sorted.indexed_literal (hi : V.Sorted E s index) {x : Datum U} {i j : Int}
    (hx : V.value s index = some x) (hj : x.index? index.kind = some j)
    (h : index.asInt? = some i) : j = i := by
  cases index with
  | concrete c =>
    cases Literal.WellFormed.canonical hi.wellFormed with
    | @word signed n v hv =>
      have hc : Literal.WellFormed ⟨.bitVec signed n, .int v⟩ := hi.wellFormed
      obtain ⟨y, hy, rfl⟩ := V.interp.word_of_literal hc hx
      cases hy
      cases h
      cases signed <;> exact (Option.some.inj hj).symm
    | int v =>
      cases hx
      cases h
      exact (Option.some.inj hj).symm
    | _ => cases h
  | symbolic n k number => cases h

theorem value_getD {es : List (Datum U)} {d : Datum U} (hes : entries.mapM (V.value s) = some es)
    (hd : V.value s fallback = some d) (i : Nat) :
    V.value s (entries.getD i fallback) = some (es.getD i d) := by
  induction entries generalizing es i with
  | nil =>
    cases hes
    exact hd
  | cons v vs ih =>
    obtain ⟨e, he, hes⟩ := Option.bind_eq_some_iff.1 (List.mapM_cons.symm.trans hes)
    obtain ⟨rest, hrest, hes⟩ := Option.bind_eq_some_iff.1 hes
    cases hes
    cases i with
    | zero => exact he
    | succ i => exact ih hrest i

variable {es : List (Datum U)} {x d : Datum U}

theorem lookup_eq (hes : entries.mapM (V.value s) = some es) (hx : V.value s index = some x)
    (hd : V.value s fallback = some d) :
    V.lookup s entries index fallback = (x.index? index.kind).map (Datum.entryAt es d) := by
  rw [lookup, hes, hx, hd]
  rfl

/-- A node that reads its table has the value of the look-up. -/
theorem value_reads (hs : s.Readable) {id : Nat} {v : Value}
    (h : s.Reads id entries index fallback v) (hes : entries.mapM (V.value s) = some es)
    (hx : V.value s index = some x) (hd : V.value s fallback = some d) :
    V.value s v = V.lookup s entries index fallback := by
  obtain ⟨ns, i, m, n, hr, hns, hi, hm, rfl, hn⟩ := h
  have hnodes : List.Forall₂ s.NodeOf (index :: fallback :: entries) (i :: m :: ns) :=
    .cons hi (.cons hm hns)
  have hargs : s.withEntries ⟨.table id, index.kind, [i, m]⟩ =
      ⟨.table id, index.kind, i :: m :: ns⟩ := by
    simp only [Scope.withEntries, hr]
    rfl
  rw [lookup_eq hes hx hd, value, if_pos rfl, hs.evaluate_target hn, hargs, Expr.valueBy,
    hs.mapM_nodesOf hnodes, List.mapM_cons, List.mapM_cons, hx, hd, hes]
  rfl

/-- What answers a look-up has its value. -/
theorem answer_value (hs : s.Readable) (h : ∀ u ∈ entries ++ [index, fallback], V.Sorted E s u)
    (hk : (index.kind.isBitVec || index.kind = .int) = true)
    (hkinds : ∀ u ∈ entries, u.kind = fallback.kind) {id : Nat} {v : Value}
    (hliteral : ∀ i, index.asInt? = some i →
      v = if 0 ≤ i then entries.getD i.toNat fallback else fallback)
    (hnode : index.asInt? = none → s.Reads id entries index fallback v) :
    V.value s v = V.lookup s entries index fallback ∧ V.Sorted E s v := by
  have he : ∀ u ∈ entries, V.Sorted E s u := fun u hu => h u (List.mem_append_left _ hu)
  have hi : V.Sorted E s index := h index (by simp)
  have hf : V.Sorted E s fallback := h fallback (by simp)
  obtain ⟨es, hes, hsorts⟩ := Sorted.alike he hkinds
  obtain ⟨x, j, hx, hj⟩ := hi.indexed hk
  obtain ⟨d, hd, hsort⟩ := hf.sort
  have hmeaning : V.lookup s entries index fallback = some (Datum.entryAt es d j) := by
    rw [lookup_eq hes hx hd, hj]
    rfl
  rcases hindex : index.asInt? with _ | i
  · have hreads := hnode hindex
    have hvalue := value_reads hs hreads hes hx hd
    obtain ⟨ns, n, m, n', -, -, -, -, rfl, -⟩ := hreads
    have hentry : (Datum.entryAt es d j).OfSort E fallback.kind.sort :=
      Build.answer_of_forall (P := Datum.OfSort E fallback.kind.sort) hsorts hsort j
    exact ⟨hvalue, trivial, _, hvalue.trans hmeaning, hentry⟩
  · obtain rfl := hi.indexed_literal hx hj hindex
    rw [hmeaning, hliteral j hindex]
    refine ⟨?_, Build.answer_of_forall (P := V.Sorted E s) he hf j⟩
    unfold Datum.entryAt
    split_ifs
    · exact value_getD hes hd j.toNat
    · exact hd

/-- A look-up answers with its value, by a literal index or by a node. -/
theorem keeps_lookup (hs : s.Readable) {id : Nat} (hid : s.table? id = none)
    (h : ∀ u ∈ entries ++ [index, fallback], V.Sorted E s u) :
    Build.Keeps Scope.Readable (Build.lookupAt id entries index fallback) s fun v t =>
      V.value t v = V.lookup s entries index fallback ∧ V.Sorted E t v := by
  have hadmits : ∀ u ∈ entries ++ [index, fallback], s.Admits u := fun u hu => (h u hu).admits hs
  refine (Build.keeps_lookup hs hid (fun u hu => hadmits u (List.mem_append_left _ hu))
    (hadmits index (by simp)) (hadmits fallback (by simp))).imp (fun _ h => h)
    fun v t hg ht hv => ?_
  obtain ⟨⟨hk, hkinds⟩, hliteral, hnode⟩ := hv
  have hkept : V.lookup t entries index fallback = V.lookup s entries index fallback := by
    rw [lookup, lookup,
      mapM_congr fun u hu => hg.value_eq hs ht (hadmits u (List.mem_append_left _ hu)),
      hg.value_eq hs ht (hadmits index (by simp)), hg.value_eq hs ht (hadmits fallback (by simp))]
  rw [← hkept]
  exact answer_value ht (fun u hu => (h u hu).grows hs ht hg) hk hkinds hliteral hnode

end Lookups

/-- An operation that computes gives its meaning. -/
theorem keeps_meaning (hI : V.interp.Respects E) (hF : V.interp.ComparesFloats)
    (hs : s.Readable) {w : Workspace} (hid : s.table? w.takeTableId.1 = none) {o : Operation}
    (ho : o.computes = true) (h : ∀ u ∈ o.operands, V.Sorted E s u) :
    Build.Keeps Scope.Readable (o.scopeStep w) s fun r t =>
      ∀ v, r = some v → V.value t v = V.meaning s o ∧ V.Sorted E t v := by
  cases o with
  | primitive p =>
    have hp : ∀ c t e, p ≠ .ite c t e := by
      rintro c t e rfl
      cases ho
    refine (keeps_primitive hI hs h).map fun v t _ _ hv u hu => ?_
    cases hu
    exact ⟨hv.2 hF hp, hv.1⟩
  | all vs =>
    have htrue : V.Sorted E s (.bool true) := .literal hI trivial
    have hvs : ∀ u ∈ vs, V.Sorted E s u := h
    refine (keeps_all hI hF hs htrue rfl rfl hvs).map fun v t _ _ hv u hu => ?_
    cases hu
    obtain ⟨bs, hbs, hvalue, hsorted⟩ := hv
    rw [meaning, hbs, hvalue]
    exact ⟨rfl, hsorted⟩
  | lookup entries index fallback =>
    refine (keeps_lookup hs hid h).map fun v t _ _ hv u hu => ?_
    cases hu
    exact hv
  | _ => cases ho

end Valuation

namespace World

variable {U : Type} {V : Valuation U} {E : SmtSort → U → Prop} {w : World}

/-- An event leaves the values of what was issued. -/
theorem Reachable.value_next (h : w.Reachable) {e : Event} (he : w.Supplies e) {j : Nat}
    {r r' : Scope} (hr : w.scopes[j]? = some r) (hr' : (w.next e).scopes[j]? = some r')
    {u : Value} (hu : u ∈ w.issued) : V.value r' u = V.value r u := by
  obtain ⟨t, ht, hg⟩ := (recorded_next h.recorded he).2 j r hr
  obtain rfl := Option.some.inj (ht.symm.trans hr')
  have hmem := List.mem_of_getElem? hr
  have hadmits : r.Admits u :=
    (Discipline.recorded_lawful (fun _ => none) (· ∈ w.issued)).admits (h.recorded.holds hmem hu)
  exact hg.value_eq (h.readable hmem) ((h.next he).readable (List.mem_of_getElem? ht)) hadmits

/-- The result of an operation on sorted operands, whichever of them are literals, is sorted and has
the value that the operation means. -/
theorem Reachable.value_call (h : w.Reachable) {i : Nat} {s : Scope} (hs : w.scopes[i]? = some s)
    {o : Operation} (ho : o.computes = true) (hI : V.interp.Respects E)
    (hF : V.interp.ComparesFloats) (hsorted : ∀ u ∈ o.operands, V.Sorted E s u) {v : Value}
    (hv : (outcome o.run (w.workspace s)).1 = .ok (some v)) :
    ∃ t, (w.next (.call i o)).scopes[i]? = some t ∧ V.Sorted E t v ∧
      V.value t v = V.meaning s o := by
  have hmem := List.mem_of_getElem? hs
  obtain ⟨-, -, hresult⟩ := Valuation.keeps_meaning hI hF (h.readable hmem)
    (h.tabled.table?_next hmem) ho hsorted
  rw [Operation.outcome_run] at hv
  obtain ⟨hvalue, hsorted'⟩ := hresult _ hv v rfl
  refine ⟨_, ?_, hsorted', hvalue⟩
  rw [w.next_call o hs]
  exact List.getElem?_set_self (List.getElem?_eq_some_iff.1 hs).1

end World

end SmtLowering
