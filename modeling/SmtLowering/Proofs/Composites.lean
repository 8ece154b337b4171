import SmtLowering.Proofs.Agreement

/-!
# Steps put together of operations

An overflow predicate is a composite step: it runs operations on values one after the other, each
chosen by what the earlier ones gave, and looks at the configuration at most
(`RangeCheck.composite`). Such a step touches a scope by making constants and expressions alone, so
whatever relation these keep it keeps (`Build.Composite.relates`), and it records nothing else
(`Build.Composite.frame`).
-/

namespace SmtLowering

open Overflow

namespace Scope

/-- A relation between earlier and later scopes that making a constant or an expression keeps. -/
structure NodeRelation (R : Scope → Scope → Prop) : Prop where
  refl (s : Scope) : R s s
  trans {s t u : Scope} : R s t → R t u → R s u
  constant (s : Scope) (c : Literal) : R s (s.constant c).2
  intern (s : Scope) (e : Expr) (k : Kind) : R s (s.intern e k).2

/-- The scope with the nodes of another one. -/
def withNodesOf (s t : Scope) : Scope :=
  { s with
    nodeKinds := t.nodeKinds
    kinds := t.kinds
    exprIds := t.exprIds
    constIds := t.constIds
    constants := t.constants
    assignments := t.assignments }

/-- Making a node leaves all but the nodes as it is. -/
theorem nodeRelation_withNodesOf : NodeRelation fun s t => t = s.withNodesOf t where
  refl _ := rfl
  trans {s t u} hst htu := by
    rw [hst] at htu
    exact htu
  constant s c := by
    rcases h : s.constIds.lookup c with _ | n
    · rw [constant_of_lookup_none h]
      rfl
    · rw [constant_of_lookup h]
      rfl
  intern s e k := by
    rcases h : s.exprIds.lookup e with _ | n
    · rw [intern_of_lookup_none h]
      rfl
    · rw [intern_of_lookup h]
      rfl

end Scope

namespace Build

/-- A step put together of operations on values. -/
inductive Composite : {α : Type} → Build α → Prop
  | pure {α : Type} (a : α) : Composite (pure a)
  | throw {α : Type} (f : Fault ValueError) : Composite (throw f : Build α)
  | configured {α : Type} (f : Config → α) : Composite (do let s ← get; pure (f s.config))
  | operation (p : Primitive) : Composite p.build
  | bind {α β : Type} {m : Build α} {f : α → Build β} :
    Composite m → (∀ a, Composite (f a)) → Composite (m >>= f)

namespace Composite

section Rules

variable {β γ : Type}

/-- An operation, and what is done with its result. -/
theorem next (p : Primitive) {f : Value → Build β} (hf : ∀ v, Composite (f v)) :
    Composite (p.build >>= f) := (operation p).bind hf

/-- A loop, by its turns. -/
theorem foldlM {f : β → γ → Build β} (h : ∀ b c, Composite (f b c)) (b : β) (cs : List γ) :
    Composite (cs.foldlM f b) := by
  induction cs generalizing b with
  | nil => exact .pure b
  | cons c cs ih =>
    rw [List.foldlM_cons]
    exact (h b c).bind ih

end Rules

section Relations

variable {R : Scope → Scope → Prop} (hR : Scope.NodeRelation R) {α β : Type}
include hR

theorem relates_bind {m : Build α} {f : α → Build β} {s : Scope} (hm : R s (outcome m s).2)
    (hf : ∀ a t, R t (outcome (f a) t).2) : R s (outcome (m >>= f) s).2 := by
  rw [outcome_bind]
  rcases ho : outcome m s with ⟨_ | a, t⟩ <;> rw [ho] at hm
  · exact hm
  · exact hR.trans hm (hf a t)

theorem relates_materialize (v : Value) (s : Scope) : R s (outcome (materialize v) s).2 := by
  cases v with
  | concrete c => exact hR.constant s c
  | symbolic n k number =>
    rw [materialize, outcome_bind_ok (outcome_get s)]
    split_ifs
    · exact hR.refl s
    · exact hR.refl s

theorem relates_materializeAll (vs : List Value) (s : Scope) :
    R s (outcome (vs.mapM materialize) s).2 := by
  induction vs generalizing s with
  | nil => exact hR.refl s
  | cons v vs ih =>
    rw [List.mapM_cons]
    refine relates_bind hR (relates_materialize hR v s) fun n t => ?_
    exact relates_bind hR (ih t) fun ns u => hR.refl u

/-- A composite step relates the scope before it and the one that it leaves, also where it fails. -/
theorem relates {m : Build α} (hm : Composite m) (s : Scope) : R s (outcome m s).2 := by
  induction hm generalizing s with
  | pure a => exact hR.refl s
  | throw f => exact hR.refl s
  | configured f => exact hR.refl s
  | operation p =>
    rw [p.build_eq]
    cases p.plan with
    | give v => exact hR.refl s
    | refuse f => exact hR.refl s
    | node op domain vs k =>
      exact relates_bind hR (relates_materializeAll hR vs s) fun ns t => hR.intern t _ k
  | bind _ _ ihm ihf => exact relates_bind hR (ihm s) ihf

end Relations

/-- A composite step adds nodes and records nothing. -/
theorem frame {α : Type} {m : Build α} (hm : Composite m) {s t : Scope}
    {r : Except (Fault ValueError) α} (h : outcome m s = (r, t)) : t = s.withNodesOf t := by
  have hs := hm.relates Scope.nodeRelation_withNodesOf s
  rwa [h] at hs

section Parts

variable (op : String) (a b c : Value)

theorem of_sameKind : Composite (sameKind op a b) := by
  unfold sameKind
  split_ifs
  · exact .pure _
  · exact .throw _

theorem of_operandWidth : Composite (operandWidth op a) := by
  unfold operandWidth wordWidth
  split
  · exact .pure _
  · exact .throw _

theorem of_operandsWidth : Composite (operandsWidth op a b) :=
  (of_sameKind op a b).bind fun _ => of_operandWidth op a

/-- A predicate on two words: without bits nothing overflows. -/
theorem of_words {f : Nat → Build Overflow} (hf : ∀ n, Composite (f n)) :
    Composite (do
      let n ← operandsWidth op a b
      if n = 0 then Pure.pure never else f n) := by
  refine (of_operandsWidth op a b).bind fun n => ?_
  split_ifs
  · exact .pure _
  · exact hf n

theorem of_and3 : Composite (and3 a b c) :=
  .next (.and a b) fun ab => .operation (.and ab c)

/-- The signs of three words and their negations, and what goes on with them. -/
theorem of_signs {β : Type} {f : Value → Value → Value → Value → Value → Value → Build β}
    (hf : ∀ sa sb sc na nb nc, Composite (f sa sb sc na nb nc)) :
    Composite (do
      let sa ← signBit a
      let sb ← signBit b
      let sc ← signBit c
      let na ← Build.not sa
      let nb ← Build.not sb
      let nc ← Build.not sc
      f sa sb sc na nb nc) :=
  .next (.signBit a) fun sa => .next (.signBit b) fun sb => .next (.signBit c) fun sc =>
    .next (.not sa) fun na => .next (.not sb) fun nb => .next (.not sc) fun nc =>
      hf sa sb sc na nb nc

theorem of_usesNative : Composite (usesNative a b) :=
  .configured fun c => c.nativeMulOverflow && !a.isConcrete && !b.isConcrete

theorem of_uscan (n : Nat) : Composite (uscan a b n) := by
  refine (foldlM (fun found i => ?_) _ _).bind fun _ => .pure _
  obtain ⟨seen, wrapped⟩ := found
  exact .next (.testBit a (n - i)) fun ai => .next (.or seen ai) fun seen =>
    .next (.testBit b i) fun bi => .next (.and seen bi) fun hit =>
    .next (.or wrapped hit) fun _ => .pure _

theorem of_sscan (sa sb : Value) (n : Nat) : Composite (sscan a b sa sb n) := by
  refine (foldlM (fun found i => ?_) _ _).bind fun _ => .pure _
  obtain ⟨seen, wrapped⟩ := found
  exact .next (.testBit b i) fun bi => .next (.xor sb bi) fun mb =>
    .next (.testBit a (n - 1 - i)) fun ai => .next (.xor sa ai) fun ma =>
    .next (.or seen ma) fun seen => .next (.and seen mb) fun hit =>
    .next (.or wrapped hit) fun _ => .pure _

theorem of_anySet (lo hi : Nat) : Composite (anySet a lo hi) := by
  unfold anySet
  split_ifs
  · exact .pure _
  · exact .next (.extract a _ lo) fun bits => .operation (.neq bits _)

theorem of_allSet (lo hi : Nat) : Composite (allSet a lo hi) := by
  unfold allSet
  split_ifs
  · exact .pure _
  · exact .next (.extract a _ lo) fun bits => .operation (.eq bits _)

theorem of_wordKind (k : Kind) : Composite (wordKind op k) := by
  unfold wordKind
  split
  · exact .pure _
  · exact .throw _

end Parts

end Composite

end Build

namespace RangeCheck

open Build Composite

section Predicates

variable (a b : Value)

theorem composite_uadd : Composite (Overflow.uadd a b) :=
  of_words _ a b fun n => .next (.zeroExtend a (n + 1)) fun wa =>
    .next (.zeroExtend b (n + 1)) fun wb => .next (.add wa wb) fun sum =>
    .next (.testBit sum n) fun _ => .pure _

theorem composite_usub : Composite (Overflow.usub a b) :=
  of_words _ a b fun n => .next (.zeroExtend a (n + 1)) fun wa =>
    .next (.zeroExtend b (n + 1)) fun wb => .next (.sub wa wb) fun diff =>
    .next (.testBit diff n) fun _ => .pure _

theorem composite_sadd : Composite (Overflow.sadd a b) :=
  of_words _ a b fun _ => .next (.add a b) fun sum =>
    of_signs a b sum fun sa sb ss na nb ns => (of_and3 sa sb ns).bind fun _ =>
    (of_and3 na nb ss).bind fun _ => .pure _

theorem composite_ssub : Composite (Overflow.ssub a b) :=
  of_words _ a b fun _ => .next (.sub a b) fun diff =>
    of_signs a b diff fun sa sb sd na nb nd => (of_and3 sa nb nd).bind fun _ =>
    (of_and3 na sb sd).bind fun _ => .pure _

theorem composite_umul : Composite (Overflow.umul a b) := by
  refine of_words _ a b fun n => (of_usesNative a b).bind fun native => ?_
  split_ifs
  · exact .next (.umulNoOverflow a b) fun ok => .next (.not ok) fun _ => .pure _
  · exact .next (.zeroExtend a (n + 1)) fun wa => .next (.zeroExtend b (n + 1)) fun wb =>
      .next (.mul wa wb) fun product => .next (.testBit product n) fun carried =>
      (of_uscan a b n).bind fun wrapped => .next (.or carried wrapped) fun _ => .pure _

theorem composite_smul : Composite (Overflow.smul a b) := by
  refine of_words _ a b fun n => (of_usesNative a b).bind fun native => ?_
  split_ifs
  · exact .next (.smulNoOverflow a b) fun noOver => .next (.smulNoUnderflow a b) fun noUnder =>
      .next (.not noUnder) fun _ => .next (.not noOver) fun _ => .pure _
  · exact .next (.signExtend a (n + 1)) fun wa => .next (.signExtend b (n + 1)) fun wb =>
      .next (.mul wa wb) fun product => .next (.testBit product n) fun top =>
      .next (.testBit product (n - 1)) fun below => .next (.xor top below) fun spilled =>
      .next (.testBit a (n - 1)) fun sa => .next (.testBit b (n - 1)) fun sb =>
      (of_sscan a b sa sb n).bind fun wrapped => .next (.or spilled wrapped) fun flag =>
      .next (.xor sa sb) fun differ => .next (.not differ) fun same =>
      .next (.and differ flag) fun _ => .next (.and same flag) fun _ => .pure _

theorem composite_sdiv : Composite (Overflow.sdiv a b) :=
  of_words _ a b fun _ => .next (.eq a _) fun aMin => .next (.eq b _) fun bMinusOne =>
    .next (.and aMin bMinusOne) fun _ => .pure _

theorem composite_sneg : Composite (Overflow.sneg a) := by
  refine (of_operandWidth _ a).bind fun n => ?_
  split_ifs
  · exact .pure _
  · exact .next (.eq a _) fun _ => .pure _

theorem composite_conversion (target : Kind) : Composite (Overflow.ofConversion a target) := by
  unfold Overflow.ofConversion
  refine (of_wordKind _ a.kind).bind fun ⟨fromSigned, n⟩ =>
    (of_wordKind _ target).bind fun ⟨toSigned, m⟩ => ?_
  cases fromSigned with
  | false =>
    simp only [Bool.false_eq_true, if_false, pure_bind, Bool.not_false, if_true]
    split_ifs
    · exact .pure _
    · exact .next (.not (.bool false)) fun _ => (of_anySet a m n).bind fun _ => .pure _
    · exact .next (.not (.bool false)) fun _ => (of_anySet a (m - 1) n).bind fun _ => .pure _
  | true =>
    simp only [if_true, Bool.not_true, Bool.false_eq_true, if_false]
    split_ifs
    · exact .pure _
    · exact .next (.signBit a) fun sign => .next (.not sign) fun positive =>
        (of_anySet a m (n - 1)).bind fun high => .next (.and positive high) fun _ => .pure _
    · exact .next (.signBit a) fun sign => .next (.not sign) fun positive =>
        (of_anySet a (m - 1) (n - 1)).bind fun high =>
        (of_allSet a (m - 1) (n - 1)).bind fun allHigh => .next (.not allHigh) fun notAllHigh =>
        .next (.and sign notAllHigh) fun _ => .next (.and positive high) fun _ => .pure _

end Predicates

/-- An overflow predicate is put together of operations. -/
theorem composite (c : RangeCheck Value) : Composite c.build := by
  cases c with
  | uadd a b => exact composite_uadd a b
  | sadd a b => exact composite_sadd a b
  | usub a b => exact composite_usub a b
  | ssub a b => exact composite_ssub a b
  | umul a b => exact composite_umul a b
  | smul a b => exact composite_smul a b
  | udiv a b => exact (of_operandsWidth _ a b).bind fun _ => .pure _
  | sdiv a b => exact composite_sdiv a b
  | uneg a => exact (of_operandWidth _ a).bind fun _ => .pure _
  | sneg a => exact composite_sneg a
  | conversion a target => exact composite_conversion a target

end RangeCheck

end SmtLowering
