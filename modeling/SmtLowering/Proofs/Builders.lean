import SmtLowering.Proofs.BitSpecs
import SmtLowering.Proofs.Valuations

/-!
# Operations and their operators

An operation on values folds, absorbs, passes an operand on or makes a node. Whichever it does, its
plan leads to what its operator makes of the operands' values (`Valuation.leads_plan`), of which
literals may be any, and carrying the plan out gives a value of that (`Valuation.keeps_exec`).
-/

namespace SmtLowering

theorem Op.Kinded.ne_neq {op : Op} {d d' k : Kind} (h : op.Kinded d [d'] k) : op ≠ .neq := by
  rintro rfl
  cases h

namespace Valuation

variable {U : Type} (V : Valuation U) (E : SmtSort → U → Prop) (s : Scope)

/-- What an operator makes of values. -/
noncomputable def apply (op : Op) (domain : Kind) (vs : List Value) : Option (Datum U) :=
  (vs.mapM (V.value s)).bind (V.operator op domain)

/-- The meaning of an operation on values: the operator of its name, and a width or a top bit taken
literally. -/
noncomputable def primitive : Primitive → Option (Datum U)
  | .not a => V.apply s .not a.kind [a]
  | .and a b => V.apply s .and a.kind [a, b]
  | .or a b => V.apply s .or a.kind [a, b]
  | .xor a b => V.apply s .xor a.kind [a, b]
  | .implies a b => V.apply s .implies a.kind [a, b]
  | .ite c t e => V.apply s .ite t.kind [c, t, e]
  | .eq a b => V.apply s .eq a.kind [a, b]
  | .neq a b => V.apply s .neq a.kind [a, b]
  | .lt a b => V.apply s .lt a.kind [a, b]
  | .le a b => V.apply s .le a.kind [a, b]
  | .gt a b => V.apply s .gt a.kind [a, b]
  | .ge a b => V.apply s .ge a.kind [a, b]
  | .add a b => V.apply s .add a.kind [a, b]
  | .sub a b => V.apply s .sub a.kind [a, b]
  | .mul a b => V.apply s .mul a.kind [a, b]
  | .div a b => V.apply s .div a.kind [a, b]
  | .neg a => V.apply s .neg a.kind [a]
  | .zeroExtend a width => (V.value s a).bind (Datum.onWord fun x => .word (x.setWidth width))
  | .signExtend a width => (V.value s a).bind (Datum.onWord fun x => .word (x.signExtend width))
  | .extract a hi lo => V.apply s (.extract hi lo) a.kind [a]
  | .testBit a i => V.apply s (.testBit i) a.kind [a]
  | .signBit a => (V.value s a).bind (Datum.onWord fun x => .bool x.msb)
  | .umulNoOverflow a b => V.apply s .umulNoOverflow a.kind [a, b]
  | .smulNoOverflow a b => V.apply s .smulNoOverflow a.kind [a, b]
  | .smulNoUnderflow a b => V.apply s .smulNoUnderflow a.kind [a, b]
  | .select array index => V.apply s .select array.kind [array, index]

/-- A literal that is well formed, or a node's value; it has a value of its kind's sort. -/
structure Sorted (u : Value) : Prop where
  wellFormed : u.WellFormed
  sort : HasSort E u.kind.sort (V.value s u)

/-- What the plan comes to, unless it refuses. -/
def Leads (o : Option (Datum U)) : Plan → Prop
  | .give v => V.value s v = o
  | .refuse _ => True
  | .node op domain vs _ => V.apply s op domain vs = o

variable {V E s} {a b : Value} {op : Op} {k : Kind} {o : Option (Datum U)} {p : Plan}

section Applications

theorem apply_one {x : Datum U} (ha : V.value s a = some x) :
    V.apply s op k [a] = V.operator op k [x] := by
  rw [apply, List.mapM_cons, ha]
  rfl

theorem apply_two {x y : Datum U} (ha : V.value s a = some x) (hb : V.value s b = some y) :
    V.apply s op k [a, b] = V.operator op k [x, y] := by
  rw [apply, List.mapM_cons, ha, List.mapM_cons, hb]
  rfl

/-- An operator has a value, of the sort that its rule assigns. -/
theorem operator_hasSort (hI : V.interp.Respects E) {domain : Kind} {ks : List Kind}
    {ds : List (Datum U)} (hk : op.kind? domain ks = some k)
    (hds : List.Forall₂ (fun k d => d.OfSort E k.sort) ks ds) :
    HasSort E k.sort (V.operator op domain ds) := by
  by_cases hneq : op = .neq → domain.isFloat = false
  · rw [V.operator_eq (Op.kinded hk).isNamed hneq]
    exact hI.denote hk hds
  · simp only [Classical.not_imp, Bool.not_eq_false] at hneq
    obtain ⟨rfl, hfloat⟩ := hneq
    cases Op.kinded hk
    obtain ⟨x, y, rfl, hx, hy⟩ := forall₂_two hds
    cases domain with
    | float exp sig =>
      obtain ⟨u, rfl⟩ := hx.isFloat
      obtain ⟨v, rfl⟩ := hy.isFloat
      exact hasSort_bool _
    | _ => cases hfloat

theorem Sorted.values {vs : List Value} (h : ∀ u ∈ vs, V.Sorted E s u) :
    ∃ ds, vs.mapM (V.value s) = some ds ∧
      List.Forall₂ (fun k d => d.OfSort E k.sort) (vs.map Value.kind) ds := by
  induction vs with
  | nil => exact ⟨[], rfl, .nil⟩
  | cons v vs ih =>
    obtain ⟨d, hd, hsort⟩ := (h v List.mem_cons_self).sort
    obtain ⟨ds, hds, hsorts⟩ := ih fun u hu => h u (List.mem_cons_of_mem _ hu)
    refine ⟨d :: ds, ?_, .cons hsort hsorts⟩
    rw [List.mapM_cons, hd, hds]
    rfl

theorem apply_hasSort (hI : V.interp.Respects E) {domain : Kind} {vs : List Value}
    (hk : op.kind? domain (vs.map Value.kind) = some k) (h : ∀ u ∈ vs, V.Sorted E s u) :
    HasSort E k.sort (V.apply s op domain vs) := by
  obtain ⟨ds, hds, hsorts⟩ := Sorted.values h
  rw [apply, hds]
  exact operator_hasSort hI hk hsorts

end Applications

section Operands

theorem Sorted.truth (ha : V.Sorted E s a) (hk : a.kind = .bool) :
    ∃ x, V.value s a = some (.bool x) := by
  obtain ⟨d, hd, hsort⟩ := ha.sort
  rw [hk] at hsort
  obtain ⟨x, rfl⟩ := hsort.isBool
  exact ⟨x, hd⟩

/-- A literal truth value stands for itself. -/
theorem Sorted.known (ha : V.Sorted E s a) {x : Bool} (hx : a.asBool? = some x) :
    a.kind = .bool ∧ V.value s a = some (.bool x) := by
  refine ⟨Plan.kind_of_asBool? ha.wellFormed hx, ?_⟩
  cases a with
  | concrete c =>
    cases Literal.WellFormed.canonical ha.wellFormed with
    | bool y =>
      cases hx
      rfl
    | _ => cases hx
  | symbolic n k number => cases hx

theorem Sorted.word (ha : V.Sorted E s a) {signed : Bool} {n : Nat}
    (hk : a.kind = .bitVec signed n) : ∃ x : BitVec n, V.value s a = some (.word x) := by
  obtain ⟨d, hd, hsort⟩ := ha.sort
  rw [hk] at hsort
  obtain ⟨x, rfl⟩ := hsort.isWord
  exact ⟨x, hd⟩

/-- What has a value in the scope may be an operand in it. -/
theorem Sorted.admits (h : s.Readable) (ha : V.Sorted E s a) : s.Admits a := by
  obtain ⟨d, hd, -⟩ := ha.sort
  cases a with
  | concrete c => trivial
  | symbolic n k number =>
    intro hn
    rw [value, if_pos hn] at hd
    exact h.lt_of_evaluate hd

theorem Sorted.congr {t : Scope} (ha : V.Sorted E s a) (h : V.value t a = V.value s a) :
    V.Sorted E t a := by
  refine ⟨ha.wellFormed, ?_⟩
  rw [h]
  exact ha.sort

theorem Sorted.grows (h : s.Readable) {t : Scope} (ht : t.Readable) (hg : s.Grows t)
    (ha : V.Sorted E s a) : V.Sorted E t a :=
  ha.congr (hg.value_eq h ht (ha.admits h))

theorem Sorted.literal (hI : V.interp.Respects E) {c : Literal} (hc : c.WellFormed) :
    V.Sorted E s (.concrete c) := ⟨hc, hI.literal hc⟩

end Operands

section Folds

variable {c d r : Literal} {x y : Datum U}

theorem literal_foldUnary (hc : c.WellFormed) (hk : op.kind? c.kind [c.kind] = some k)
    (h : foldUnary op c k = some r) (hx : V.interp.literal c = some x) :
    V.interp.literal r = V.operator op c.kind [x] := by
  have hkinded := Op.kinded hk
  rw [V.operator_eq hkinded.isNamed fun h => (hkinded.ne_neq h).elim, denote_unary V.interp hk]
  exact foldUnary_value V.interp hc hk h hx

/-- Floats are only compared. -/
theorem literal_foldFloats (hF : V.interp.ComparesFloats) {exp sig : Nat} {u v : Binary64}
    (h : foldBinary op ⟨.float exp sig, .float u⟩ ⟨.float exp sig, .float v⟩ k = some r) :
    V.interp.literal r = V.operator op (.float exp sig)
      [.other (V.interp.float exp sig u), .other (V.interp.float exp sig v)] := by
  unfold foldBinary at h
  split_ifs at h with hop
  obtain ⟨b, hb, rfl⟩ := Option.map_eq_some_iff.1 h
  cases op with
  | eq =>
    cases hb
    exact congrArg (some <| Datum.bool ·) (hF.eq exp sig u v).symm
  | neq =>
    cases hb
    exact congrArg (some <| Datum.bool !·) (hF.eq exp sig u v).symm
  | lt =>
    cases hb
    exact congrArg (some <| Datum.bool ·) (hF.lt exp sig u v).symm
  | le =>
    cases hb
    exact congrArg (some <| Datum.bool ·) (hF.le exp sig u v).symm
  | gt =>
    cases hb
    exact congrArg (some <| Datum.bool ·) (hF.gt exp sig u v).symm
  | ge =>
    cases hb
    exact congrArg (some <| Datum.bool ·) (hF.ge exp sig u v).symm
  | _ => cases hop

theorem literal_foldBinary (hF : V.interp.ComparesFloats) (hc : c.WellFormed) (hd : d.WellFormed)
    (he : c.kind = d.kind) (hk : op.kind? c.kind [c.kind, d.kind] = some k)
    (h : foldBinary op c d k = some r) (hx : V.interp.literal c = some x)
    (hy : V.interp.literal d = some y) : V.interp.literal r = V.operator op c.kind [x, y] := by
  by_cases hf : c.kind.isFloat = false
  · rw [V.operator_eq (Op.kinded hk).isNamed fun _ => hf]
    rw [foldBinary_value V.interp hc hd he hf hk h hx hy]
    rw [← he] at hk
    exact (denote_binary V.interp hk).symm
  · cases hc.canonical with
    | float exp sig u =>
      cases hd.canonical with
      | float exp' sig' v =>
        cases he
        cases hx
        cases hy
        exact literal_foldFloats hF h
      | _ => cases he
    | _ => exact (hf rfl).elim

end Folds

section Plans

theorem leads_sameKind (name : String) (h : a.kind = b.kind → V.Leads s o p) :
    V.Leads s o (Plan.sameKind name a b p) := by
  unfold Plan.sameKind
  split_ifs with hk
  · exact h hk
  · trivial

theorem leads_require (name : String) {ok : Bool} (h : ok = true → V.Leads s o p) :
    V.Leads s o (Plan.require name a ok p) := by
  unfold Plan.require
  split_ifs with hk
  · exact h hk
  · trivial

theorem leads_wordWidth (name : String) {q : Nat → Plan}
    (h : ∀ signed n, a.kind = .bitVec signed n → V.Leads s o (q n)) :
    V.Leads s o (Plan.wordWidth name a q) := by
  unfold Plan.wordWidth
  cases hk : a.kind with
  | bitVec signed n => exact h signed n hk
  | _ => trivial

theorem leads_unary (ha : V.Sorted E s a) (hk : op.kind? a.kind [a.kind] = some k) :
    V.Leads s (V.apply s op a.kind [a]) (Plan.unary op a k) := by
  unfold Plan.unary
  rcases hf : Build.foldUnary? op a k with _ | r
  · rfl
  · cases a with
    | concrete c =>
      obtain ⟨x, hx, -⟩ := ha.sort
      exact (literal_foldUnary ha.wellFormed hk hf hx).trans (apply_one hx).symm
    | symbolic n k' number => cases hf

theorem leads_binary (hF : V.interp.ComparesFloats) (ha : V.Sorted E s a) (hb : V.Sorted E s b)
    (he : a.kind = b.kind) (hk : op.kind? a.kind [a.kind, b.kind] = some k) :
    V.Leads s (V.apply s op a.kind [a, b]) (Plan.binary op a b k) := by
  unfold Plan.binary
  rcases hf : Build.foldBinary? op a b k with _ | r
  · rfl
  · cases a with
    | concrete c =>
      cases b with
      | concrete d =>
        obtain ⟨x, hx, -⟩ := ha.sort
        obtain ⟨y, hy, -⟩ := hb.sort
        exact (literal_foldBinary hF ha.wellFormed hb.wellFormed he hk hf hx hy).trans
          (apply_two hx hy).symm
      | symbolic n k' number => cases hf
    | symbolic n k' number => cases hf

end Plans

section Connectives

theorem leads_not (ha : V.Sorted E s a) :
    V.Leads s (V.apply s .not a.kind [a]) (Plan.not a) :=
  leads_require _ fun hbits => leads_unary ha (if_pos ⟨hbits, rfl⟩)

section Truths

variable {x y : Bool} (hk : a.kind = .bool) (ha : V.value s a = some (.bool x))
  (hb : V.value s b = some (.bool y))
include hk ha

theorem apply_not : V.apply s .not a.kind [a] = some (.bool !x) := by
  rw [hk, apply_one ha]
  rfl

include hb

theorem apply_and : V.apply s .and a.kind [a, b] = some (.bool (x && y)) := by
  rw [hk, apply_two ha hb]
  rfl

theorem apply_or : V.apply s .or a.kind [a, b] = some (.bool (x || y)) := by
  rw [hk, apply_two ha hb]
  rfl

theorem apply_xor : V.apply s .xor a.kind [a, b] = some (.bool (x != y)) := by
  rw [hk, apply_two ha hb]
  rfl

end Truths

variable (hF : V.interp.ComparesFloats) (ha : V.Sorted E s a) (hb : V.Sorted E s b)
include hF ha hb

theorem leads_and : V.Leads s (V.apply s .and a.kind [a, b]) (Plan.and a b) := by
  refine leads_sameKind _ fun he => leads_require _ fun hbits => ?_
  split
  · next hx =>
    obtain ⟨hk, hva⟩ := ha.known hx
    obtain ⟨y, hvb⟩ := hb.truth (he ▸ hk)
    rw [apply_and hk hva hvb]
    rfl
  · next hy _ =>
    obtain ⟨hk, hvb⟩ := hb.known hy
    obtain ⟨x, hva⟩ := ha.truth (he.trans hk)
    rw [apply_and (he.trans hk) hva hvb, Bool.and_false]
    rfl
  · next hx _ =>
    obtain ⟨hk, hva⟩ := ha.known hx
    obtain ⟨y, hvb⟩ := hb.truth (he ▸ hk)
    rw [apply_and hk hva hvb]
    exact hvb
  · next hy _ _ =>
    obtain ⟨hk, hvb⟩ := hb.known hy
    obtain ⟨x, hva⟩ := ha.truth (he.trans hk)
    rw [apply_and (he.trans hk) hva hvb, Bool.and_true]
    exact hva
  · exact leads_binary hF ha hb he (he ▸ if_pos ⟨hbits, rfl⟩)

theorem leads_or : V.Leads s (V.apply s .or a.kind [a, b]) (Plan.or a b) := by
  refine leads_sameKind _ fun he => leads_require _ fun hbits => ?_
  split
  · next hx =>
    obtain ⟨hk, hva⟩ := ha.known hx
    obtain ⟨y, hvb⟩ := hb.truth (he ▸ hk)
    rw [apply_or hk hva hvb]
    rfl
  · next hy _ =>
    obtain ⟨hk, hvb⟩ := hb.known hy
    obtain ⟨x, hva⟩ := ha.truth (he.trans hk)
    rw [apply_or (he.trans hk) hva hvb, Bool.or_true]
    rfl
  · next hx _ =>
    obtain ⟨hk, hva⟩ := ha.known hx
    obtain ⟨y, hvb⟩ := hb.truth (he ▸ hk)
    rw [apply_or hk hva hvb]
    exact hvb
  · next hy _ _ =>
    obtain ⟨hk, hvb⟩ := hb.known hy
    obtain ⟨x, hva⟩ := ha.truth (he.trans hk)
    rw [apply_or (he.trans hk) hva hvb, Bool.or_false]
    exact hva
  · exact leads_binary hF ha hb he (he ▸ if_pos ⟨hbits, rfl⟩)

theorem leads_xor : V.Leads s (V.apply s .xor a.kind [a, b]) (Plan.xor a b) := by
  refine leads_sameKind _ fun he => leads_require _ fun hbits => ?_
  split
  · next hx hy =>
    obtain ⟨hk, hva⟩ := ha.known hx
    rw [apply_xor hk hva (hb.known hy).2]
    rfl
  · next hx _ =>
    obtain ⟨hk, hva⟩ := ha.known hx
    obtain ⟨y, hvb⟩ := hb.truth (he ▸ hk)
    rw [apply_xor hk hva hvb, Bool.false_bne]
    exact hvb
  · next _ hy =>
    obtain ⟨hk, hvb⟩ := hb.known hy
    obtain ⟨x, hva⟩ := ha.truth (he.trans hk)
    rw [apply_xor (he.trans hk) hva hvb, Bool.bne_false]
    exact hva
  · next hx _ =>
    obtain ⟨hk, hva⟩ := ha.known hx
    obtain ⟨y, hvb⟩ := hb.truth (he ▸ hk)
    rw [apply_xor hk hva hvb, Bool.true_bne, ← apply_not (he ▸ hk) hvb]
    exact leads_not hb
  · next _ hy =>
    obtain ⟨hk, hvb⟩ := hb.known hy
    obtain ⟨x, hva⟩ := ha.truth (he.trans hk)
    rw [apply_xor (he.trans hk) hva hvb, Bool.bne_true, ← apply_not (he.trans hk) hva]
    exact leads_not ha
  · exact leads_binary hF ha hb he (he ▸ if_pos ⟨hbits, rfl⟩)

theorem leads_implies : V.Leads s (V.apply s .implies a.kind [a, b]) (Plan.implies a b) := by
  refine leads_sameKind _ fun he => leads_require _ fun hbool => ?_
  exact leads_binary hF ha hb he (he ▸ if_pos ⟨Kind.eq_bool hbool, rfl⟩)

end Connectives

section Numbers

variable (hF : V.interp.ComparesFloats) (ha : V.Sorted E s a) (hb : V.Sorted E s b)
include hF ha hb

theorem leads_equality (name : String) (hop : ∀ d, op.kind? d [d, d] = some .bool) :
    V.Leads s (V.apply s op a.kind [a, b]) (Plan.equality op name a b) :=
  leads_sameKind _ fun he => leads_binary hF ha hb he (he ▸ hop _)

theorem leads_ordering (name : String)
    (hop : ∀ d, op.kind? d [d, d] = if d.isNumeric || d.isFloat then some .bool else none) :
    V.Leads s (V.apply s op a.kind [a, b]) (Plan.ordering op name a b) :=
  leads_sameKind _ fun he => leads_require _ fun hn =>
    leads_binary hF ha hb he (he ▸ (hop _).trans (if_pos hn))

theorem leads_arith (name : String)
    (hop : ∀ d, op.kind? d [d, d] = if d.isNumeric then some d else none) :
    V.Leads s (V.apply s op a.kind [a, b]) (Plan.arith op name a b) :=
  leads_sameKind _ fun he => leads_require _ fun hn =>
    leads_binary hF ha hb he (he ▸ (hop _).trans (if_pos hn))

theorem leads_native (name : String)
    (hop : ∀ signed n, op.kind? (.bitVec signed n) [.bitVec signed n, .bitVec signed n] =
      some .bool) : V.Leads s (V.apply s op a.kind [a, b]) (Plan.native op name a b) := by
  refine leads_sameKind _ fun he => leads_wordWidth _ fun signed n hk => ?_
  refine leads_binary hF ha hb he ?_
  rw [← he, hk]
  exact hop signed n

end Numbers

section Words

variable (ha : V.Sorted E s a)
include ha

theorem leads_neg : V.Leads s (V.apply s .neg a.kind [a]) (Plan.neg a) :=
  leads_require _ fun hn => leads_unary ha (if_pos ⟨hn, rfl⟩)

/-- An extension to the word's own width is none. -/
theorem leads_extend {op : Nat → Op} (name : String) (width : Nat)
    {f : (w : Nat) → {n : Nat} → BitVec n → BitVec w}
    (hop : ∀ signed n count, (op count).kind? (.bitVec signed n) [.bitVec signed n] =
      some (.bitVec signed (n + count)))
    (hf : ∀ signed n count (x : BitVec n), V.operator (op count) (.bitVec signed n) [.word x] =
      some (.word (f (n + count) x)))
    (hid : ∀ n (x : BitVec n), f n x = x) :
    V.Leads s ((V.value s a).bind (Datum.onWord fun x => .word (f width x)))
      (Plan.extend op name a width) := by
  refine leads_wordWidth _ fun signed n hk => ?_
  obtain ⟨x, hx⟩ := ha.word hk
  rw [hx]
  split_ifs with hlt heq
  · trivial
  · subst heq
    exact hx.trans (congrArg (some <| Datum.word ·) (hid width x).symm)
  · obtain ⟨count, rfl⟩ := Nat.exists_eq_add_of_le (Nat.not_lt.1 hlt)
    have hrule : (op count).kind? a.kind [a.kind] = some (.bitVec signed (n + count)) := by
      rw [hk, hop]
    have hunary := leads_unary ha hrule
    rw [apply_one hx, hk, hf] at hunary
    rw [Nat.add_sub_cancel_left, hk, Kind.withWidth_bitVec]
    exact hunary

theorem leads_extract (hi lo : Nat) :
    V.Leads s (V.apply s (.extract hi lo) a.kind [a]) (Plan.extract a hi lo) := by
  refine leads_wordWidth _ fun signed n hk => leads_require _ fun hin => ?_
  have hin : lo ≤ hi ∧ hi < n := by simpa using hin
  split_ifs with hfull
  · -- all the bits of a word
    obtain ⟨x, hx⟩ := ha.word hk
    obtain ⟨rfl, rfl, -⟩ := hfull
    have hall : x.extractLsb' 0 (hi + 1) = x := by
      apply BitVec.eq_of_getLsbD_eq
      intro i hi
      simp [hi]
    rw [apply_one hx, hk]
    exact hx.trans ((congrArg (some <| Datum.word ·) hall.symm).trans (if_pos hin).symm)
  · refine leads_unary ha ?_
    rw [hk]
    exact if_pos ⟨hin, rfl⟩

theorem leads_testBit (i : Nat) :
    V.Leads s (V.apply s (.testBit i) a.kind [a]) (Plan.testBit a i) := by
  refine leads_wordWidth _ fun signed n hk => leads_require _ fun hi => leads_unary ha ?_
  rw [hk]
  exact if_pos ⟨of_decide_eq_true hi, rfl⟩

theorem leads_signBit :
    V.Leads s ((V.value s a).bind (Datum.onWord fun x => .bool x.msb)) (Plan.signBit a) := by
  refine leads_wordWidth _ fun signed n hk => ?_
  obtain ⟨x, hx⟩ := ha.word hk
  cases n with
  | zero =>
    rw [hx, BitVec.eq_nil x]
    rfl
  | succ n =>
    have hbit := leads_testBit ha n
    rw [apply_one hx, hk] at hbit
    rw [hx]
    refine Eq.mp (congrArg (V.Leads s · _) ?_) hbit
    exact (if_pos (Nat.lt_succ_self n)).trans
      (congrArg (some <| Datum.bool ·) (BitVec.msb_eq_getLsbD_last x).symm)

theorem leads_select : V.Leads s (V.apply s .select a.kind [a, b]) (Plan.select a b) := by
  unfold Plan.select
  cases hk : a.kind with
  | array key value =>
    simp only
    split_ifs
    · -- no literal is an array, so nothing folds
      cases a with
      | concrete c =>
        obtain ⟨kind, p⟩ := c
        obtain rfl : kind = .array key value := hk
        exact ha.wellFormed.elim
      | symbolic n k number =>
        rw [← hk]
        rfl
    · trivial
  | _ => trivial

end Words

section Carrying

/-- Every operation but the choice between two values leads to its meaning. -/
theorem leads_plan (hF : V.interp.ComparesFloats) (r : Primitive) (hr : ∀ c t e, r ≠ .ite c t e)
    (h : ∀ u ∈ r.operands, V.Sorted E s u) : V.Leads s (V.primitive s r) r.plan := by
  cases r with
  | not a => exact leads_not (h a (by simp [Primitive.operands]))
  | and a b | or a b | xor a b | implies a b =>
    have ha := h a (by simp [Primitive.operands])
    have hb := h b (by simp [Primitive.operands])
    first
      | exact leads_and hF ha hb
      | exact leads_or hF ha hb
      | exact leads_xor hF ha hb
      | exact leads_implies hF ha hb
  | eq a b | neq a b =>
    exact leads_equality hF (h a (by simp [Primitive.operands]))
      (h b (by simp [Primitive.operands])) _ fun d => if_pos rfl
  | lt a b | le a b | gt a b | ge a b =>
    exact leads_ordering hF (h a (by simp [Primitive.operands]))
      (h b (by simp [Primitive.operands])) _ fun d => by simp [Op.kind?]
  | add a b | sub a b | mul a b | div a b =>
    exact leads_arith hF (h a (by simp [Primitive.operands]))
      (h b (by simp [Primitive.operands])) _ fun d => by simp [Op.kind?]
  | neg a => exact leads_neg (h a (by simp [Primitive.operands]))
  | zeroExtend a width =>
    exact leads_extend (f := fun w _ x => x.setWidth w) (h a (by simp [Primitive.operands])) _ width
      (fun _ _ _ => if_pos rfl) (fun _ _ _ _ => rfl) fun _ x => x.setWidth_eq
  | signExtend a width =>
    exact leads_extend (f := fun w _ x => x.signExtend w) (h a (by simp [Primitive.operands])) _
      width (fun _ _ _ => if_pos rfl) (fun _ _ _ _ => rfl) fun _ x => x.signExtend_eq
  | extract a hi lo => exact leads_extract (h a (by simp [Primitive.operands])) hi lo
  | testBit a i => exact leads_testBit (h a (by simp [Primitive.operands])) i
  | signBit a => exact leads_signBit (h a (by simp [Primitive.operands]))
  | umulNoOverflow a b | smulNoOverflow a b | smulNoUnderflow a b =>
    exact leads_native hF (h a (by simp [Primitive.operands]))
      (h b (by simp [Primitive.operands])) _ fun _ _ => if_pos rfl
  | select a i => exact leads_select (h a (by simp [Primitive.operands]))
  | ite c t e => exact (hr c t e rfl).elim

theorem apply_grows (hs : s.Readable) {t : Scope} (ht : t.Readable) (hg : s.Grows t)
    {domain : Kind} {vs : List Value} (h : ∀ u ∈ vs, s.Admits u) :
    V.apply t op domain vs = V.apply s op domain vs := by
  rw [apply, apply, mapM_congr fun u hu => hg.value_eq hs ht (h u hu)]

/-- A node over operands has the value of its operator on theirs. -/
theorem keeps_node (V : Valuation U) (hs : s.Readable) {domain : Kind} {vs : List Value}
    (hop : op.isNamed = false) (h : ∀ u ∈ vs, s.Admits u) :
    Build.Keeps Scope.Readable (Plan.node op domain vs k).exec s fun v t =>
      V.value t v = V.apply t op domain vs ∧ (∃ ns, List.Forall₂ t.NodeOf vs ns) ∧
        ∃ n, v = .symbolic n k t.number := by
  have hread : ∀ id, op ≠ .table id := by
    rintro id rfl
    cases hop
  refine (Build.keeps_interned hs h hread).imp (fun _ h => h) fun v t _ ht hv => ?_
  obtain ⟨ns, n, rfl, hns, hm⟩ := hv
  refine ⟨?_, ⟨ns, hns⟩, n, rfl⟩
  rw [value, if_pos rfl, ht.evaluate_target hm, Scope.withEntries_of_ne hread, Expr.valueBy,
    ht.mapM_nodesOf hns, apply]

/-- Carrying a plan out over sorted operands gives a sorted value, of what the plan leads to. -/
theorem keeps_exec (hI : V.interp.Respects E) (hs : s.Readable) {vs : List Value}
    {k? : Option Kind} (hw : p.Within vs) (ht : p.Typed k?) (h : ∀ u ∈ vs, V.Sorted E s u) :
    Build.Keeps Scope.Readable p.exec s fun v t =>
      V.Sorted E t v ∧ ∀ o, V.Leads s o p → V.value t v = o := by
  cases p with
  | give v =>
    refine Build.keeps_pure hs ⟨?_, fun _ ho => ho⟩
    rcases hw with hw | hw
    · cases v with
      | concrete c => exact .literal hI ht.2
      | symbolic n k number => cases hw
    · exact h v hw
  | refuse f => exact Build.keeps_throw hs f
  | node op domain us k =>
    obtain ⟨hsub, hop, -⟩ := hw
    have hus : ∀ u ∈ us, V.Sorted E s u := fun u hu => h u (hsub hu)
    have hadmits : ∀ u ∈ us, s.Admits u := fun u hu => (hus u hu).admits hs
    refine (keeps_node V hs hop hadmits).imp (fun _ h => h) fun v t hg htr hv => ?_
    obtain ⟨hvalue, -, n, rfl⟩ := hv
    rw [apply_grows hs htr hg hadmits] at hvalue
    refine ⟨⟨trivial, ?_⟩, fun _ ho => hvalue.trans ho⟩
    rw [hvalue]
    exact apply_hasSort hI ht.2 hus

end Carrying

end Valuation

end SmtLowering
