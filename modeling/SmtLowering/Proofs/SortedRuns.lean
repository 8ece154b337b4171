import SmtLowering.Proofs.Calls

/-!
# Sorted runs

The values of inputs, applications and arrays are a valuation's own choice. If it chooses them in
the sorts that they were issued under (`Valuation.Fits`), every value that a scope has issued is of
its kind's sort, as long as literals are well formed (`World.FedRun.sorted`): signatures may be
lost, and operands may come from other scopes, which get no further than being passed on. These are
operands whose results have the values that their operations mean (`World.call_value`).
-/

namespace SmtLowering

/-- A node whose value is chosen: an input, an application or an array. -/
def Scope.LeavesOpen (s : Scope) (u : Value) : Prop :=
  ∃ n k, u = .symbolic n k s.number ∧ (n ∈ s.inputIds ∨
    ∃ e, (n, e) ∈ s.assignments ∧ e.op.isNamed = true ∧ ∀ id, e.op ≠ .table id)

theorem Scope.Grows.leavesOpen {s t : Scope} (hg : s.Grows t) {u : Value} (h : s.LeavesOpen u) :
    t.LeavesOpen u := by
  obtain ⟨n, k, rfl, h⟩ := h
  refine ⟨n, k, by rw [hg.number], ?_⟩
  rcases h with h | ⟨e, he, hop⟩
  · exact .inl ((hg.inputs.map _).subset h)
  · exact .inr ⟨e, hg.assignments.subset he, hop⟩

namespace Valuation

variable {U : Type} (V : Valuation U) (E : SmtSort → U → Prop) (s : Scope)

/-- A value that is sorted if it is a literal or of the scope. -/
structure Safe (u : Value) : Prop where
  wellFormed : u.WellFormed
  own : ∀ n k, u = .symbolic n k s.number → HasSort E k.sort (s.evaluate V n)

variable {V E s} {u : Value}

theorem Sorted.safe (h : V.Sorted E s u) : V.Safe E s u := by
  refine ⟨h.wellFormed, ?_⟩
  rintro n k rfl
  have hsort := h.sort
  rwa [value, if_pos rfl] at hsort

/-- What stands for a node is sorted. -/
theorem Safe.sorted (hI : V.interp.Respects E) (h : V.Safe E s u) {n : NodeId}
    (hn : s.NodeOf u n) : V.Sorted E s u := by
  cases u with
  | concrete c => exact .literal hI h.wellFormed
  | symbolic m k number =>
    obtain ⟨rfl, -, -⟩ := hn
    refine ⟨trivial, ?_⟩
    rw [value, if_pos rfl]
    exact h.own m k rfl

theorem Safe.admits (hs : s.Readable) (h : V.Safe E s u) : s.Admits u := by
  cases u with
  | concrete c => trivial
  | symbolic n k number =>
    rintro rfl
    obtain ⟨d, hd, -⟩ := h.own n k rfl
    exact hs.lt_of_evaluate hd

theorem Safe.grows (hs : s.Readable) {t : Scope} (ht : t.Readable) (hg : s.Grows t)
    (h : V.Safe E s u) : V.Safe E t u := by
  refine ⟨h.wellFormed, ?_⟩
  rintro n k rfl
  have hown := hg.number
  have hlt : n < s.nodeCount := h.admits hs hown
  rw [hg.evaluate hs ht hlt]
  exact h.own n k (by rw [hown])

theorem Safe.sorted_all (hI : V.interp.Respects E) {vs : List Value} {ns : List NodeId}
    (h : ∀ u ∈ vs, V.Safe E s u) (hns : List.Forall₂ s.NodeOf vs ns) :
    ∀ u ∈ vs, V.Sorted E s u := by
  induction hns with
  | nil => exact List.forall_mem_nil _
  | @cons v n vs ns hn _ ih =>
    have hv := (h v List.mem_cons_self).sorted hI hn
    exact List.forall_mem_cons.2 ⟨hv, ih fun u hu => h u (List.mem_cons_of_mem _ hu)⟩

section Steps

variable (hI : V.interp.Respects E) (hs : s.Readable)
include hI hs

/-- A plan that is carried out passes on a safe value, or its operands were sorted. -/
theorem keeps_exec_safe {p : Plan} {vs : List Value} {k? : Option Kind} (hw : p.Within vs)
    (ht : p.Typed k?) (h : ∀ u ∈ vs, V.Safe E s u) :
    Build.Keeps Scope.Readable p.exec s fun v t => V.Safe E t v := by
  cases p with
  | give v =>
    refine Build.keeps_pure hs ?_
    rcases hw with hw | hw
    · cases v with
      | concrete c => exact (Sorted.literal hI ht.2).safe
      | symbolic n k number => cases hw
    · exact h v hw
  | refuse f => exact Build.keeps_throw hs f
  | node op domain us k =>
    obtain ⟨hsub, hop, -⟩ := hw
    have hus : ∀ u ∈ us, V.Safe E s u := fun u hu => h u (hsub hu)
    refine (keeps_node V hs hop fun u hu => (hus u hu).admits hs).imp (fun _ h => h)
      fun v t hg htr hv => ?_
    obtain ⟨hvalue, ⟨ns, hns⟩, n, rfl⟩ := hv
    have hsorted := Safe.sorted_all hI (fun u hu => (hus u hu).grows hs htr hg) hns
    refine Sorted.safe ⟨trivial, ?_⟩
    rw [hvalue]
    exact apply_hasSort hI ht.2 hsorted

theorem keeps_all_safe {vs : List Value} (h : ∀ u ∈ vs, V.Safe E s u) {acc : Value}
    (hacc : V.Safe E s acc) :
    Build.Keeps Scope.Readable (vs.foldlM Build.and acc) s fun v t => V.Safe E t v := by
  induction vs generalizing acc s with
  | nil => exact Build.keeps_pure hs hacc
  | cons u vs ih =>
    have hboth : ∀ x ∈ (Primitive.and acc u).operands, V.Safe E s x := by
      simp [Primitive.operands, hacc, h u List.mem_cons_self]
    rw [List.foldlM_cons, ← Plan.exec_and]
    refine (keeps_exec_safe hI hs (Primitive.and acc u).plan_within
      (Primitive.plan_typed (.and acc u) fun x hx => (hboth x hx).wellFormed) hboth).bind
      fun acc' t hg ht hacc' => ?_
    exact ih ht (fun x hx => (h x (List.mem_cons_of_mem _ hx)).grows hs ht hg) hacc'

theorem keeps_lookup_safe {id : Nat} (hid : s.table? id = none) {entries : List Value}
    {index fallback : Value} (h : ∀ u ∈ entries ++ [index, fallback], V.Safe E s u) :
    Build.Keeps Scope.Readable (Build.lookupAt id entries index fallback) s fun v t =>
      V.Safe E t v := by
  have hadmits : ∀ u ∈ entries ++ [index, fallback], s.Admits u := fun u hu => (h u hu).admits hs
  refine (Build.keeps_lookup hs hid (fun u hu => hadmits u (List.mem_append_left _ hu))
    (hadmits index (by simp)) (hadmits fallback (by simp))).imp (fun _ h => h)
    fun v t hg ht hv => ?_
  obtain ⟨⟨hk, hkinds⟩, hliteral, hnode⟩ := hv
  have hsafe : ∀ u ∈ entries ++ [index, fallback], V.Safe E t u :=
    fun u hu => (h u hu).grows hs ht hg
  rcases hindex : index.asInt? with _ | i
  · obtain ⟨ns, m, n, _, -, hns, hm, hn, -, -⟩ := hnode hindex
    have hnodes : List.Forall₂ t.NodeOf (entries ++ [index, fallback]) (ns ++ [m, n]) :=
      List.rel_append hns (.cons hm (.cons hn .nil))
    have hsorted := Safe.sorted_all hI hsafe hnodes
    exact (answer_value ht hsorted hk hkinds hliteral hnode).2.safe
  · rw [hliteral i hindex]
    exact Build.answer_of_forall (P := V.Safe E t)
      (fun u hu => hsafe u (List.mem_append_left _ hu)) (hsafe fallback (by simp)) i

omit hI in
/-- An application is left open. -/
theorem leavesOpen_applyKnown {known : Option Signature} {name : String} {result : Kind}
    {args : List Value} (h : ∀ u ∈ args, s.Admits u) {v : Value} {t : Scope}
    (hv : outcome (Build.applyKnown known name result args) s = (.ok v, t)) : t.LeavesOpen v := by
  have hnode (hv : outcome (Plan.node (.apply name) (Work.applicationDomain result args) args
      result).exec s = (.ok v, t)) : t.LeavesOpen v := by
    have hop : ∀ id, Op.apply name ≠ .table id := fun _ => Op.noConfusion
    obtain ⟨ns, n, rfl, -, hm⟩ := (Build.keeps_interned hs h hop).of_ok hv
    exact ⟨n, result, rfl, .inr ⟨_, hm, rfl, hop⟩⟩
  unfold Build.applyKnown at hv
  cases known with
  | none => exact hnode hv
  | some declared =>
    simp only at hv
    split_ifs at hv
    · exact hnode hv
    · cases hv

omit hI in
/-- An array is left open. -/
theorem leavesOpen_declareArray {id : Nat} {name : String} {key value : Kind} {v : Value}
    {t : Scope} (hv : outcome (Build.declareArray id name key value) s = (.ok v, t)) :
    t.LeavesOpen v := by
  obtain ⟨_, u, hu, hi⟩ := outcome_bind_eq_ok hv
  cases hu
  cases hi
  have harena := hs.arena.artifacts s.tables (s.arrays ++ [⟨id, name, key, value⟩]) s.codeSegments
    s.observables s.constraints s.assertions s.outputs
  obtain ⟨n, hn, hm⟩ := harena.intern_mem ⟨.arrayRef id, .array key value, []⟩ (.array key value)
  refine ⟨n, .array key value, hn.trans ?_, .inr ⟨_, hm, rfl, fun _ => Op.noConfusion⟩⟩
  exact congrArg (Value.symbolic n _) (Scope.intern_grows _ _ _).number.symm

/-- What an operation on safe operands issues is safe, or left open. -/
theorem safe_of_result {w : Workspace} (hid : s.table? w.takeTableId.1 = none) {o : Operation}
    (h : ∀ u ∈ o.operands, V.Safe E s u) {v : Value} {t : Scope}
    (hv : outcome (o.scopeStep w) s = (.ok (some v), t)) : V.Safe E t v ∨ t.LeavesOpen v := by
  cases o with
  | primitive p =>
    obtain ⟨u, hu, he⟩ := outcome_map_eq_ok hv
    cases he
    exact .inl ((keeps_exec_safe hI hs p.plan_within
      (p.plan_typed fun x hx => (h x hx).wellFormed) h).of_ok hu)
  | all vs =>
    obtain ⟨u, hu, he⟩ := outcome_map_eq_ok hv
    cases he
    have htrue : V.Sorted E s (.bool true) := .literal hI trivial
    exact .inl ((keeps_all_safe hI hs h htrue.safe).of_ok hu)
  | lookup entries index fallback =>
    obtain ⟨u, hu, he⟩ := outcome_map_eq_ok hv
    cases he
    exact .inl ((keeps_lookup_safe hI hs hid h).of_ok hu)
  | input role name kind =>
    obtain ⟨u, hu, he⟩ := outcome_map_eq_ok hv
    cases he
    cases hu
    refine .inr ⟨s.nodeCount, kind, rfl, .inl ?_⟩
    simp [Scope.inputIds]
  | apply name result args =>
    obtain ⟨u, hu, he⟩ := outcome_map_eq_ok hv
    cases he
    exact .inr (leavesOpen_applyKnown hs (fun x hx => (h x hx).admits hs) hu)
  | newArray name key value =>
    obtain ⟨u, hu, he⟩ := outcome_map_eq_ok hv
    cases he
    exact .inr (leavesOpen_declareArray hs hu)
  | registerDefinition sig d => cases hv
  | addAxiom text => cases hv
  | forgetUninterpreted name => cases hv
  | _ =>
    obtain ⟨_, _, he⟩ := outcome_map_eq_ok hv
    cases he

end Steps

variable (V E) in
/-- What was issued and left open has a value of the sort that it was issued under. -/
def Fits (w : World) (s : Scope) : Prop := ∀ u ∈ w.issued, s.LeavesOpen u → V.Sorted E s u

end Valuation

namespace World

variable {U : Type} {V : Valuation U} {E : SmtSort → U → Prop} {w : World} {e : Event} {u : Value}

/-- The worlds that events on well-formed literals lead to. -/
inductive FedRun : World → Prop
  | empty : FedRun .empty
  | next {w : World} {e : Event} :
    FedRun w → w.Supplies e → Feeds .typed e → FedRun (w.next e)

theorem FedRun.reachable (h : w.FedRun) : w.Reachable := by
  induction h with
  | empty => exact .empty
  | next _ hsup _ ih => exact .next ih hsup

theorem CarefulRun.fed (h : w.CarefulRun) : w.FedRun := by
  induction h with
  | empty => exact .empty
  | next _ he ih => exact .next ih he.supplied he.literals

/-- What is issued after an event was issued before, or is what an operation gave. -/
theorem issued_next (w : World) (e : Event) (hu : u ∈ (w.next e).issued) :
    u ∈ w.issued ∨ ∃ i o s, e = .call i o ∧ w.scopes[i]? = some s ∧
      (outcome (o.scopeStep (w.workspace s)) s).1 = .ok (some u) := by
  cases e with
  | start config => exact .inl hu
  | fork parent purpose =>
    simp only [next] at hu
    split at hu
    · exact .inl hu
    · split at hu
      · exact .inl hu
      · exact .inl hu
  | call i o =>
    rcases hs : w.scopes[i]? with _ | s
    · rw [w.next_call_none o hs] at hu
      exact .inl hu
    · rw [w.next_call o hs] at hu
      exact (List.mem_append.1 hu).imp_right fun hu => ⟨i, o, s, rfl, hs, mem_newlyIssued hu⟩

theorem issued_subset (w : World) (e : Event) : w.issued ⊆ (w.next e).issued := by
  cases e with
  | start config => exact List.Subset.refl _
  | fork parent purpose =>
    simp only [next]
    split
    · exact List.Subset.refl _
    · split <;> exact List.Subset.refl _
  | call i o =>
    rcases hs : w.scopes[i]? with _ | s
    · rw [w.next_call_none o hs]
      exact List.Subset.refl _
    · rw [w.next_call o hs]
      exact List.subset_append_left _ _

section Step

variable {i : Nat} {s t : Scope} {n : NodeId} {k : Kind}

/-- What was issued before an event is sorted after it, if it was before. -/
theorem Reachable.sorted_next (h : w.Reachable) (hsup : w.Supplies e) (hs : w.scopes[i]? = some s)
    (ht : (w.next e).scopes[i]? = some t) (hfit : V.Fits E (w.next e) t) :
    V.Fits E w s ∧ ∀ u ∈ w.issued, V.Sorted E s u → V.Sorted E t u := by
  obtain ⟨t', ht', hg⟩ := (recorded_next h.recorded hsup).2 i s hs
  obtain rfl := Option.some.inj (ht'.symm.trans ht)
  have hvalue : ∀ u ∈ w.issued, V.value t' u = V.value s u := fun u hu =>
    h.value_next hsup hs ht hu
  refine ⟨fun u hu hopen => ?_, fun u hu hsorted => hsorted.congr (hvalue u hu)⟩
  exact (hfit u (w.issued_subset e hu) (hg.leavesOpen hopen)).congr (hvalue u hu).symm

/-- What an operation issues in its scope is sorted, if what was issued there before is. -/
theorem Reachable.sorted_call (h : w.Reachable) {o : Operation} (hs : w.scopes[i]? = some s)
    (hsup : w.Supplies (.call i o)) (hfeed : Feeds .typed (.call i o)) (hI : V.interp.Respects E)
    (hsorted : ∀ n k, .symbolic n k s.number ∈ w.issued → V.Sorted E s (.symbolic n k s.number))
    (ht : (w.next (.call i o)).scopes[i]? = some t)
    (hu : (outcome (o.scopeStep (w.workspace s)) s).1 = .ok (some u)) :
    V.Safe E t u ∨ t.LeavesOpen u := by
  have hmem := List.mem_of_getElem? hs
  have hsafe : ∀ v ∈ o.operands, V.Safe E s v := by
    intro v hv
    cases v with
    | concrete c => exact (Valuation.Sorted.literal hI (hfeed c hv)).safe
    | symbolic n k number =>
      refine ⟨trivial, ?_⟩
      rintro m k' ⟨⟩
      rcases hsup _ hv with hv | hv
      · cases hv
      · exact (hsorted n k hv).safe.own n k rfl
  rw [w.next_call o hs] at ht
  obtain rfl := Option.some.inj
    ((List.getElem?_set_self (List.getElem?_eq_some_iff.1 hs).1).symm.trans ht)
  exact Valuation.safe_of_result hI (h.readable hmem) (h.tabled.table?_next hmem) hsafe
    (Prod.ext hu rfl)

end Step

/-- What an operation issues is of its scope, or was issued before. -/
theorem Reachable.issued_or_own (h : w.Reachable) {i : Nat} {s : Scope} {o : Operation}
    (hs : w.scopes[i]? = some s) (hsup : w.Supplies (.call i o)) {n : NodeId} {k : Kind}
    {number : Nat}
    (hu : (outcome (o.scopeStep (w.workspace s)) s).1 = .ok (some (.symbolic n k number))) :
    .symbolic n k number ∈ w.issued ∨ number = i := by
  have hcalled := h.recorded.called Discipline.recorded_lawful hs hsup (fun _ _ => trivial)
    fun _ _ _ _ _ hx => hx
  have hholds := hcalled.of_ok (Prod.ext hu rfl) _ rfl
  have hnumber := hcalled.1.number.trans (h.recorded.number i s hs)
  by_cases hi : number = i
  · exact .inr hi
  · refine .inl ((Discipline.holds_other ?_).1 hholds)
    rw [hnumber]
    exact hi

/-- In a run on literals that are well formed, a valuation that chooses values in their sorts gives
all that a scope has issued values in theirs. -/
theorem FedRun.sorted (h : w.FedRun) (hI : V.interp.Respects E) {i : Nat} {t : Scope}
    (ht : w.scopes[i]? = some t) (hfit : V.Fits E w t) {n : NodeId} {k : Kind}
    (hn : .symbolic n k i ∈ w.issued) : V.Sorted E t (.symbolic n k i) := by
  induction h generalizing i t n k with
  | empty => cases hn
  | @next w e hw hsup hfeed ih =>
    have hr := hw.reachable
    have old {n : NodeId} {k : Kind} (hn : .symbolic n k i ∈ w.issued) :
        V.Sorted E t (.symbolic n k i) := by
      obtain ⟨s, hs, -⟩ := hr.recorded.nodes n k i hn
      obtain ⟨hfit', hkept⟩ := hr.sorted_next hsup hs ht hfit
      exact hkept _ hn (ih hs hfit' hn)
    rcases w.issued_next e hn with hn' | ⟨j, o, s, rfl, hs, hok⟩
    · exact old hn'
    · rcases hr.issued_or_own hs hsup hok with hn' | rfl
      · exact old hn'
      · have hnumber := hr.recorded.number i s hs
        obtain ⟨hfit', -⟩ := hr.sorted_next hsup hs ht hfit
        have hsorted : ∀ n k, .symbolic n k s.number ∈ w.issued →
            V.Sorted E s (.symbolic n k s.number) := by
          rw [hnumber]
          exact fun n k hn => ih hs hfit' hn
        rcases hr.sorted_call hs hsup hfeed hI hsorted ht hok with hsafe | hopen
        · refine ⟨trivial, ?_⟩
          have hnumber' : i = t.number := ((hr.next hsup).recorded.number i t ht).symm
          rw [Valuation.value, if_pos hnumber']
          exact hsafe.own n k (congrArg _ hnumber')
        · exact hfit _ hn hopen

/-- In a reachable world the result of an operation has the value that the operation means,
whichever of its operands are literals and whichever are values of the scope, and what was issued
before keeps its value. Operands have values of their kinds' sorts: literals that are well formed
always do, and, in a run on such literals, so does all that a scope has issued, if the valuation
chooses values in their sorts. -/
theorem call_value (h : w.Reachable) {i : Nat} {s : Scope} (hs : w.scopes[i]? = some s)
    (hI : V.interp.Respects E) (hF : V.interp.ComparesFloats) :
    (∀ o v, w.Supplies (.call i o) → o.computes = true → (∀ u ∈ o.operands, V.Sorted E s u) →
        (outcome o.run (w.workspace s)).1 = .ok (some v) →
        (∃ t, (w.next (.call i o)).scopes[i]? = some t ∧ V.Sorted E t v ∧
            V.value t v = V.meaning s o) ∧
          ∀ u ∈ w.issued, ∀ (j : Nat) (r r' : Scope), w.scopes[j]? = some r →
            (w.next (.call i o)).scopes[j]? = some r' → V.value r' u = V.value r u) ∧
      (∀ c : Literal, c.WellFormed → V.Sorted E s (.concrete c)) ∧
      (w.FedRun → V.Fits E w s →
        ∀ n k, .symbolic n k i ∈ w.issued → V.Sorted E s (.symbolic n k i)) := by
  refine ⟨fun o v hsup ho hsorted hv => ⟨?_, ?_⟩, fun c hc => .literal hI hc,
    fun hfed hfit n k hn => hfed.sorted hI hs hfit hn⟩
  · exact h.value_call hs ho hI hF hsorted hv
  · exact fun u hu j r r' hr hr' => h.value_next hsup hr hr' hu

/-- The only input of `withInput` is one. -/
noncomputable def inputOne : Valuation Binary64 :=
  ⟨.payloads, fun _ => .word 1#8, fun _ => .bool false⟩

/-- A table of a literal and the input, read at the input. -/
def readAtInput : Operation :=
  .lookup [.concrete (.word false 8 5), .symbolic 2 (.unsigned 8) 0] (.symbolic 2 (.unsigned 8) 0)
    (.concrete (.word false 8 3))

/-- The entry of index one is the input, which is one. -/
theorem call_value_readAtInput :
    ∃ s t, withInput.scopes[0]? = some s ∧
      (withInput.next (.call 0 readAtInput)).scopes[0]? = some t ∧
      inputOne.value t (.symbolic 5 (.unsigned 8) 0) = some (.word 1#8) ∧
      inputOne.value t (.symbolic 2 (.unsigned 8) 0) =
        inputOne.value s (.symbolic 2 (.unsigned 8) 0) := by
  have hfed : withInput.FedRun := withInput_careful.fed
  have hs : withInput.scopes[0]? = some withInput.scopes[0] := rfl
  have hissued : withInput.issued = [.symbolic 2 (.unsigned 8) 0] := by decide
  have hinput : inputOne.value withInput.scopes[0] (.symbolic 2 (.unsigned 8) 0) =
      some (.word 1#8) := by
    have hmem : 2 ∈ withInput.scopes[0].inputIds := by decide
    rw [Valuation.value, if_pos (by decide)]
    exact (hfed.reachable.readable (List.mem_of_getElem? hs)).evaluate_input hmem
  have hfit : inputOne.Fits IsFloat withInput withInput.scopes[0] := by
    intro u hu _
    rw [hissued, List.mem_singleton] at hu
    subst hu
    exact ⟨trivial, _, hinput, .word _⟩
  have hsup : withInput.Supplies (.call 0 readAtInput) := by
    simp [Supplies, readAtInput, Operation.operands, Value.isConcrete, hissued]
  obtain ⟨hcall, hliteral, hsorted⟩ := call_value (V := inputOne) hfed.reachable hs
    Interpretation.payloads_respects Interpretation.payloads_comparesFloats
  have hword (v : Int) := hliteral (.word false 8 v) (Literal.word_wellFormed false 8 v)
  have hx := hsorted hfed hfit 2 (.unsigned 8) (by simp [hissued])
  have hoperands : ∀ u ∈ readAtInput.operands, inputOne.Sorted IsFloat withInput.scopes[0] u := by
    simp only [readAtInput, Operation.operands, List.cons_append, List.nil_append,
      List.forall_mem_cons]
    exact ⟨hword 5, hx, hx, hword 3, List.forall_mem_nil _⟩
  obtain ⟨⟨t, ht, -, hvalue⟩, hkept⟩ :=
    hcall readAtInput (.symbolic 5 (.unsigned 8) 0) hsup rfl hoperands rfl
  refine ⟨_, t, hs, ht, hvalue.trans ?_, hkept _ (by simp [hissued]) 0 _ t hs ht⟩
  have hentries : [.concrete (.word false 8 5), .symbolic 2 (.unsigned 8) 0].mapM
      (inputOne.value withInput.scopes[0]) = some [.word 5#8, .word 1#8] := by
    rw [List.mapM_cons, List.mapM_cons, hinput]
    rfl
  exact (Valuation.lookup_eq hentries hinput rfl).trans rfl

end World

end SmtLowering
