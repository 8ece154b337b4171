import SmtLowering.Proofs.Bodies
import SmtLowering.Proofs.TypedRuns

/-!
# Sorts of values

Where an interpretation respects sorts, an operator on values of the sorts that its kind rule asks
for has a value, of the sort that the rule assigns (`Interpretation.Respects.denote`). So each node
of a typed scope has a value, of its kind's sort (`Scope.node_value`), and in a careful run neither
an issued value nor a lowered body gets stuck (`World.CarefulRun.issued_value`,
`World.CarefulRun.body_value`).
-/

namespace SmtLowering

/-- The datum is of the sort, `E` being the elements of the sorts without a meaning of their own. -/
inductive Datum.OfSort {U : Type} (E : SmtSort → U → Prop) : SmtSort → Datum U → Prop
  | bool (b : Bool) : OfSort E .bool (.bool b)
  | word {n : Nat} (x : BitVec n) : OfSort E (.bitVec n) (.word x)
  | int (i : Int) : OfSort E .int (.int i)
  | real (r : ℝ) : OfSort E .real (.real r)
  | float {exp sig : Nat} {u : U} (h : E (.floatingPoint exp sig) u) :
      OfSort E (.floatingPoint exp sig) (.other u)
  | array {key value : SmtSort} {u : U} (h : E (.array key value) u) :
      OfSort E (.array key value) (.other u)
  | named {name : String} {u : U} (h : E (.named name) u) : OfSort E (.named name) (.other u)

/-- Floats and arrays are of the elements of their sorts. -/
structure Interpretation.Respects {U : Type} (I : Interpretation U) (E : SmtSort → U → Prop) :
    Prop where
  float : ∀ exp sig x, E (.floatingPoint exp sig) (I.float exp sig x)
  select : ∀ key value u d, E (.array key value) u → d.OfSort E key → (I.select u d).OfSort E value

/-- What the scope's functions, tables and arrays stand for is of the sorts that they declare. -/
structure Interpretation.Declares {U : Type} (I : Interpretation U) (E : SmtSort → U → Prop)
    (σ : Signatures) (s : Scope) : Prop where
  functions : ∀ name sig, σ name = some sig → ∀ ds,
    List.Forall₂ (fun k d => d.OfSort E k.sort) sig.args ds →
      (I.apply name ds).OfSort E sig.result.sort
  tables : ∀ t ∈ s.tables, ∀ i d, i.OfSort E t.index.sort → d.OfSort E t.elem.sort →
    (I.apply s!"table{t.id}" [i, d]).OfSort E t.elem.sort
  arrays : ∀ a ∈ s.arrays, (I.apply s!"array_{a.id}" []).OfSort E (.array a.key.sort a.value.sort)

section Sample

/-- A value of the sort, an element being the name of its sort. -/
noncomputable def SmtSort.sample : SmtSort → Datum SmtSort
  | .bool => .bool false
  | .bitVec n => .word 0#n
  | .int => .int 0
  | .real => .real 0
  | s => .other s

theorem SmtSort.sample_ofSort (s : SmtSort) : s.sample.OfSort (fun s u => u = s) s := by
  cases s <;> constructor <;> rfl

/-- Functions are constant, and so are arrays. -/
noncomputable def Interpretation.sample (σ : Signatures) : Interpretation SmtSort where
  float exp sig _ := .floatingPoint exp sig
  floatTest _ _ _ := false
  select u _ :=
    match u with
    | .array _ value => value.sample
    | u => u.sample
  apply name _ :=
    match σ name with
    | some sig => sig.result.sort.sample
    | none => .bool false
  intDivZero _ := 0
  realDivZero _ := 0

variable (σ : Signatures)

theorem Interpretation.sample_respects : (sample σ).Respects fun s u => u = s := by
  refine ⟨fun exp sig x => rfl, fun key value u d hu hd => ?_⟩
  subst hu
  exact value.sample_ofSort

/-- Whatever the signatures, there is an interpretation for a scope without tables and arrays. -/
theorem Interpretation.sample_declares {s : Scope} (ht : s.tables = []) (ha : s.arrays = []) :
    (sample σ).Declares (fun s u => u = s) σ s := by
  refine ⟨fun name sig hsig ds hds => ?_, by simp [ht], by simp [ha]⟩
  simp only [sample, hsig]
  exact sig.result.sort.sample_ofSort

end Sample

variable {U : Type} {I : Interpretation U} {E : SmtSort → U → Prop}

/-- There is a value, of the sort. -/
def HasSort (E : SmtSort → U → Prop) (s : SmtSort) (o : Option (Datum U)) : Prop :=
  ∃ d, o = some d ∧ d.OfSort E s

section Operators

variable {domain k : Kind} {a b : Datum U}

theorem Datum.OfSort.isBool (h : a.OfSort E .bool) : ∃ x, a = .bool x := by
  cases h with
  | bool x => exact ⟨x, rfl⟩

theorem Datum.OfSort.isWord {n : Nat} (h : a.OfSort E (.bitVec n)) :
    ∃ x : BitVec n, a = .word x := by
  cases h with
  | word x => exact ⟨x, rfl⟩

theorem Datum.OfSort.isFloat {exp sig : Nat} (h : a.OfSort E (.floatingPoint exp sig)) :
    ∃ u, a = .other u := by
  cases h with
  | float h => exact ⟨_, rfl⟩

theorem hasSort_bool (b : Bool) : HasSort E .bool (some (.bool b)) := ⟨_, rfl, .bool b⟩

theorem hasSort_word {n : Nat} (x : BitVec n) : HasSort E (.bitVec n) (some (.word x)) :=
  ⟨_, rfl, .word x⟩

theorem hasSort_arith (hn : domain.isNumeric) (ha : a.OfSort E domain.sort)
    (hb : b.OfSort E domain.sort) (f : {n : Nat} → BitVec n → BitVec n → BitVec n)
    (g : Int → Int → Int) (h : ℝ → ℝ → ℝ) :
    HasSort E domain.sort (Datum.arith domain f g h a b) := by
  cases domain with
  | bitVec s n =>
    obtain ⟨x, rfl⟩ := ha.isWord
    obtain ⟨y, rfl⟩ := hb.isWord
    exact ⟨_, Interpretation.onWords_word fun x y => .word (f x y), .word _⟩
  | int =>
    cases ha
    cases hb
    exact ⟨_, rfl, .int _⟩
  | real =>
    cases ha
    cases hb
    exact ⟨_, rfl, .real _⟩
  | _ => cases hn

theorem hasSort_connective (hb : domain.isBits) (ha : a.OfSort E domain.sort)
    (hb' : b.OfSort E domain.sort) (f : {n : Nat} → BitVec n → BitVec n → BitVec n)
    (g : Bool → Bool → Bool) : HasSort E domain.sort (Datum.connective domain f g a b) := by
  cases domain with
  | bool =>
    obtain ⟨x, rfl⟩ := ha.isBool
    obtain ⟨y, rfl⟩ := hb'.isBool
    exact hasSort_bool _
  | bitVec s n =>
    obtain ⟨x, rfl⟩ := ha.isWord
    obtain ⟨y, rfl⟩ := hb'.isWord
    exact ⟨_, Interpretation.onWords_word fun x y => .word (f x y), .word _⟩
  | _ => cases hb

theorem hasSort_order (hn : (domain.isNumeric || domain.isFloat) = true)
    (ha : a.OfSort E domain.sort) (hb : b.OfSort E domain.sort) (float : String)
    (signed unsigned : {n : Nat} → BitVec n → BitVec n → Bool) (f : Int → Int → Bool)
    (g : ℝ → ℝ → Bool) : HasSort E .bool (I.order domain float signed unsigned f g a b) := by
  cases domain with
  | bitVec s n =>
    obtain ⟨x, rfl⟩ := ha.isWord
    obtain ⟨y, rfl⟩ := hb.isWord
    exact ⟨_, I.order_word float signed unsigned f g, .bool _⟩
  | int =>
    cases ha
    cases hb
    exact hasSort_bool _
  | real =>
    cases ha
    cases hb
    exact hasSort_bool _
  | float exp sig =>
    obtain ⟨u, rfl⟩ := ha.isFloat
    obtain ⟨v, rfl⟩ := hb.isFloat
    exact hasSort_bool _
  | _ => cases hn

theorem hasSort_quotient (hn : domain.isNumeric) (ha : a.OfSort E domain.sort)
    (hb : b.OfSort E domain.sort) : HasSort E domain.sort (I.quotient domain a b) := by
  cases domain with
  | bitVec s n =>
    obtain ⟨x, rfl⟩ := ha.isWord
    obtain ⟨y, rfl⟩ := hb.isWord
    exact ⟨_, I.div_word, .word _⟩
  | int =>
    cases ha
    cases hb
    exact ⟨_, rfl, .int _⟩
  | real =>
    cases ha
    cases hb
    exact ⟨_, rfl, .real _⟩
  | _ => cases hn

theorem hasSort_eq (ha : a.OfSort E domain.sort) (hb : b.OfSort E domain.sort) :
    HasSort E .bool (I.binary .eq domain a b) := by
  cases domain with
  | float exp sig =>
    obtain ⟨u, rfl⟩ := ha.isFloat
    obtain ⟨v, rfl⟩ := hb.isFloat
    exact hasSort_bool _
  | _ => exact hasSort_bool _

theorem hasSort_neg (hn : domain.isNumeric) (ha : a.OfSort E domain.sort) :
    HasSort E domain.sort (a.unary .neg domain) := by
  cases domain with
  | bitVec s n =>
    obtain ⟨x, rfl⟩ := ha.isWord
    exact hasSort_word _
  | int =>
    cases ha
    exact ⟨_, rfl, .int _⟩
  | real =>
    cases ha
    exact ⟨_, rfl, .real _⟩
  | _ => cases hn

theorem hasSort_not (hb : domain.isBits) (ha : a.OfSort E domain.sort) :
    HasSort E domain.sort (a.unary .not domain) := by
  cases domain with
  | bool =>
    obtain ⟨x, rfl⟩ := ha.isBool
    exact hasSort_bool _
  | bitVec s n =>
    obtain ⟨x, rfl⟩ := ha.isWord
    exact hasSort_word _
  | _ => cases hb

variable {ks : List Kind} {ds : List (Datum U)}

theorem forall₂_one {R : Kind → Datum U → Prop} (h : List.Forall₂ R [k] ds) :
    ∃ a, ds = [a] ∧ R k a := by
  obtain _ | ⟨ha, _ | _⟩ := h
  exact ⟨_, rfl, ha⟩

theorem forall₂_two {R : Kind → Datum U → Prop} {k' : Kind} (h : List.Forall₂ R [k, k'] ds) :
    ∃ a b, ds = [a, b] ∧ R k a ∧ R k' b := by
  obtain _ | ⟨ha, hrest⟩ := h
  obtain ⟨b, rfl, hb⟩ := forall₂_one hrest
  exact ⟨_, _, rfl, ha, hb⟩

/-- An operator on values of the sorts that its rule asks for has a value, of the sort that the rule
assigns. -/
theorem Interpretation.Respects.denote (hI : I.Respects E) {op : Op}
    (h : op.kind? domain ks = some k)
    (hds : List.Forall₂ (fun k d => d.OfSort E k.sort) ks ds) :
    HasSort E k.sort (I.denote op domain ds) := by
  cases Op.kinded h with
  | not hd =>
    obtain ⟨a, rfl, ha⟩ := forall₂_one hds
    exact hasSort_not hd ha
  | neg hd =>
    obtain ⟨a, rfl, ha⟩ := forall₂_one hds
    exact hasSort_neg hd ha
  | and hd | or hd | xor hd =>
    obtain ⟨a, b, rfl, ha, hb⟩ := forall₂_two hds
    exact hasSort_connective hd ha hb _ _
  | implies =>
    obtain ⟨a, b, rfl, ha, hb⟩ := forall₂_two hds
    obtain ⟨x, rfl⟩ := ha.isBool
    obtain ⟨y, rfl⟩ := hb.isBool
    exact hasSort_bool _
  | ite =>
    obtain _ | ⟨hc, hrest⟩ := hds
    obtain ⟨a, b, rfl, ha, hb⟩ := forall₂_two hrest
    obtain ⟨x, rfl⟩ := hc.isBool
    refine ⟨_, rfl, ?_⟩
    cases x
    · exact hb
    · exact ha
  | eq =>
    obtain ⟨a, b, rfl, ha, hb⟩ := forall₂_two hds
    exact hasSort_eq ha hb
  | neq =>
    obtain ⟨a, b, rfl, -, -⟩ := forall₂_two hds
    exact hasSort_bool _
  | lt hd | le hd | gt hd | ge hd =>
    obtain ⟨a, b, rfl, ha, hb⟩ := forall₂_two hds
    exact hasSort_order hd ha hb _ _ _ _ _
  | add hd | sub hd | mul hd =>
    obtain ⟨a, b, rfl, ha, hb⟩ := forall₂_two hds
    exact hasSort_arith hd ha hb _ _ _
  | div hd =>
    obtain ⟨a, b, rfl, ha, hb⟩ := forall₂_two hds
    exact hasSort_quotient hd ha hb
  | zeroExtend | signExtend =>
    obtain ⟨a, rfl, ha⟩ := forall₂_one hds
    obtain ⟨x, rfl⟩ := ha.isWord
    exact hasSort_word _
  | extract s hin =>
    obtain ⟨a, rfl, ha⟩ := forall₂_one hds
    obtain ⟨x, rfl⟩ := ha.isWord
    exact ⟨_, if_pos hin, .word _⟩
  | testBit s hi =>
    obtain ⟨a, rfl, ha⟩ := forall₂_one hds
    obtain ⟨x, rfl⟩ := ha.isWord
    exact ⟨_, if_pos hi, .bool _⟩
  | select key value =>
    obtain ⟨a, b, rfl, ha, hb⟩ := forall₂_two hds
    cases ha with
    | array he => exact ⟨_, rfl, hI.select _ _ _ _ he hb⟩
  | umulNoOverflow s w =>
    obtain ⟨a, b, rfl, ha, hb⟩ := forall₂_two hds
    obtain ⟨x, rfl⟩ := ha.isWord
    obtain ⟨y, rfl⟩ := hb.isWord
    exact ⟨_, I.umulNoOverflow_word (s := s), .bool _⟩
  | smulNoOverflow s w =>
    obtain ⟨a, b, rfl, ha, hb⟩ := forall₂_two hds
    obtain ⟨x, rfl⟩ := ha.isWord
    obtain ⟨y, rfl⟩ := hb.isWord
    exact ⟨_, I.smulNoOverflow_word (s := s), .bool _⟩
  | smulNoUnderflow s w =>
    obtain ⟨a, b, rfl, ha, hb⟩ := forall₂_two hds
    obtain ⟨x, rfl⟩ := ha.isWord
    obtain ⟨y, rfl⟩ := hb.isWord
    exact ⟨_, I.smulNoUnderflow_word (s := s), .bool _⟩

end Operators

/-- A literal that is well formed has a value, of its kind's sort. -/
theorem Interpretation.Respects.literal (hI : I.Respects E) {c : Literal} (hc : c.WellFormed) :
    HasSort E c.kind.sort (I.literal c) := by
  cases hc.canonical with
  | bool b => exact hasSort_bool _
  | word => exact hasSort_word _
  | int i => exact ⟨_, rfl, .int _⟩
  | real q => exact ⟨_, rfl, .real _⟩
  | float exp sig x => exact ⟨_, rfl, .float (hI.float exp sig x)⟩

namespace Scope

variable {σ : Signatures} {s : Scope} {ρ : NodeId → Datum U}

theorem HaveKinds.values {ns : List NodeId} {ks : List Kind} {env : NodeId → Option (Datum U)}
    (h : s.HaveKinds ns ks)
    (henv : ∀ n ∈ ns, ∀ k, s.kindOf? n = some k → HasSort E k.sort (env n)) :
    ∃ ds, ns.mapM env = some ds ∧ List.Forall₂ (fun k d => d.OfSort E k.sort) ks ds := by
  induction h with
  | nil => exact ⟨[], rfl, .nil⟩
  | cons hk _ ih =>
    obtain ⟨d, hd, hsort⟩ := henv _ List.mem_cons_self _ hk
    obtain ⟨ds, hds, hsorts⟩ := ih fun n hn => henv n (List.mem_cons_of_mem _ hn)
    refine ⟨d :: ds, ?_, .cons hsort hsorts⟩
    rw [List.mapM_cons, hd, hds]
    rfl

/-- An expression of a kind has a value of its sort, where its operands have theirs. -/
theorem HasKind.value (hI : I.Respects E) (hd : I.Declares E σ s) {e : Expr} {k : Kind}
    (h : s.HasKind σ e k) {env : NodeId → Option (Datum U)}
    (henv : ∀ n ∈ e.args, ∀ k, s.kindOf? n = some k → HasSort E k.sort (env n)) :
    HasSort E k.sort (Graph.exprValue I env e) := by
  obtain ⟨ks, hks, hr⟩ := h
  obtain ⟨ds, hds, hsorts⟩ := hks.values henv
  rw [Graph.exprValue, hds, Option.bind_some]
  cases hop : e.op with
  | apply name =>
    rw [hop] at hr
    exact ⟨_, rfl, hd.functions name _ hr ds hsorts⟩
  | table id =>
    rw [hop] at hr
    obtain ⟨t, ht, rfl, rfl, rfl⟩ := hr
    obtain ⟨i, d, rfl, hi, hd'⟩ := forall₂_two hsorts
    exact ⟨_, rfl, hd.tables t ht i d hi hd'⟩
  | arrayRef id =>
    rw [hop] at hr
    obtain ⟨⟨a, ha, rfl, rfl⟩, -, -⟩ := hr
    exact ⟨_, rfl, hd.arrays a ha⟩
  | _ =>
    rw [hop] at hr
    exact hI.denote hr hsorts

/-- Each node has a value, of its kind's sort. -/
theorem node_value (hs : Discipline.typed.Conforms σ s) (hI : I.Respects E) (hd : I.Declares E σ s)
    (hρ : ∀ i ∈ s.inputs, (ρ i.node).OfSort E i.kind.sort) {n : Nat} {k : Kind}
    (hn : s.kindOf? n = some k) : HasSort E k.sort (s.graph.value I ρ n) := by
  induction n using Nat.strong_induction_on generalizing k with
  | _ n ih =>
    have hlt : n < s.nodeCount := (List.getElem?_eq_some_iff.1 hn).1
    rcases hs.arena.node_cases hlt with hi | ⟨c, hc⟩ | ⟨e, he⟩
    · obtain ⟨i, hi', rfl⟩ := List.mem_map.1 hi
      rw [hs.arena.value_input hi]
      obtain rfl : i.kind = k := by
        rw [hs.arena.input_kind i hi'] at hn
        exact Option.some.inj hn
      exact ⟨_, rfl, hρ i hi'⟩
    · rw [hs.arena.value_constant hc]
      obtain rfl : c.kind = k := by
        rw [hs.arena.constant_kind _ hc] at hn
        exact Option.some.inj hn
      exact hI.literal (hs.literals _ hc)
    · rw [hs.arena.value_target he]
      obtain ⟨k', hk, hkind⟩ := hs.exprs _ he
      obtain rfl : k' = k := by
        rw [hn] at hk
        exact (Option.some.inj hk).symm
      exact hkind.value hI hd fun m hm _ hkm => ih m (hs.arena.args_lt _ he m hm) hkm

end Scope

namespace World

variable {w : World} {c : Scope} {ρ : NodeId → Datum U}

theorem CarefulRun.reachable (h : w.CarefulRun) : w.Reachable := by
  induction h with
  | empty => exact .empty
  | next _ he ih => exact .next ih he.supplied

/-- In a careful run what a scope has issued has a value in it, of the kind it was issued under. -/
theorem CarefulRun.issued_value (h : w.CarefulRun) {i n : Nat} {k : Kind}
    (hc : w.scopes[i]? = some c) (hv : .symbolic n k i ∈ w.issued) (hI : I.Respects E)
    (hd : I.Declares E (w.signatures c) c)
    (hρ : ∀ j ∈ c.inputs, (ρ j.node).OfSort E j.kind.sort) :
    HasSort E k.sort (c.valueOf I ρ (.symbolic n k i)) := by
  obtain ⟨s, hs, hn⟩ := h.typed.nodes n k i hv
  obtain rfl : c = s := Option.some.inj (hc.symm.trans hs)
  rw [Scope.valueOf, if_pos (h.typed.number i c hc).symm]
  exact Scope.node_value (h.typed.scopes c (List.mem_of_getElem? hc)) hI hd hρ hn

/-- In a careful run the bodies of lowered scopes have values of the kind that is expected. -/
theorem CarefulRun.body_value (h : w.CarefulRun) (hc : c ∈ w.scopes) {context : String}
    {expected : Kind} {t : ValidTrace} (ht : c.finish.validate context expected = .ok t)
    (hx : t.Expressible) (hI : I.Respects E) (hd : I.Declares E (w.signatures c) c)
    (hρ : ∀ i ∈ c.inputs, (ρ i.node).OfSort E i.kind.sort) :
    ∃ d, Definition.ofTrace t = .ok d ∧ ∀ indent, ∃ e, t.readBody? (d.body indent) = some e ∧
      HasSort E expected.sort (e.eval I (t.inputEnv c ρ)) := by
  have htrace := isTraceOf h.reachable hc ht
  obtain ⟨bs, hofTrace, hbs⟩ := htrace.ofTrace hx
  refine ⟨_, hofTrace, fun indent => ⟨_, ValidTrace.IsTraceOf.readBody hx hbs indent, ?_⟩⟩
  rw [htrace.eval_body hx]
  obtain ⟨-, -, out, hout, rfl⟩ := Trace.validate_ok ht
  exact Scope.node_value (h.typed.scopes c hc) hI hd hρ hout

end World

end SmtLowering
