import SmtLowering.Proofs.Conditions
import SmtLowering.Proofs.Recorded

/-!
# Symbolic conditions and literal ones

The overflow predicates on values of a scope, and on the literals that those stand for, say the same
(`World.conditions_agree`). Both are runs of one specification: the conditions it reports depend on
the operands' words alone (`RangeCheck.reports`), so neither the mix of literals and nodes nor the
configuration matters.
-/

namespace SmtLowering

/-- An overflow predicate with its operands. -/
inductive RangeCheck (α : Type)
  | uadd (a b : α)
  | sadd (a b : α)
  | usub (a b : α)
  | ssub (a b : α)
  | umul (a b : α)
  | smul (a b : α)
  | udiv (a b : α)
  | sdiv (a b : α)
  | uneg (a : α)
  | sneg (a : α)
  | conversion (a : α) (target : Kind)

namespace RangeCheck

section Operands

variable {α β : Type}

def operands : RangeCheck α → List α
  | .uadd a b | .sadd a b | .usub a b | .ssub a b => [a, b]
  | .umul a b | .smul a b | .udiv a b | .sdiv a b => [a, b]
  | .uneg a | .sneg a | .conversion a _ => [a]

def map (f : α → β) : RangeCheck α → RangeCheck β
  | .uadd a b => .uadd (f a) (f b)
  | .sadd a b => .sadd (f a) (f b)
  | .usub a b => .usub (f a) (f b)
  | .ssub a b => .ssub (f a) (f b)
  | .umul a b => .umul (f a) (f b)
  | .smul a b => .smul (f a) (f b)
  | .udiv a b => .udiv (f a) (f b)
  | .sdiv a b => .sdiv (f a) (f b)
  | .uneg a => .uneg (f a)
  | .sneg a => .sneg (f a)
  | .conversion a target => .conversion (f a) target

theorem map_id (c : RangeCheck α) : c.map id = c := by cases c <;> rfl

end Operands

def build : RangeCheck Value → Build Overflow
  | .uadd a b => Overflow.uadd a b
  | .sadd a b => Overflow.sadd a b
  | .usub a b => Overflow.usub a b
  | .ssub a b => Overflow.ssub a b
  | .umul a b => Overflow.umul a b
  | .smul a b => Overflow.smul a b
  | .udiv a b => Overflow.udiv a b
  | .sdiv a b => Overflow.sdiv a b
  | .uneg a => Overflow.uneg a
  | .sneg a => Overflow.sneg a
  | .conversion a target => Overflow.ofConversion a target

/-- The operands are words of one kind, and so is the target of a conversion. -/
def Fits : RangeCheck Value → Prop
  | .uadd a b | .sadd a b | .usub a b | .ssub a b => a.kind.isBitVec ∧ a.kind = b.kind
  | .umul a b | .smul a b | .udiv a b | .sdiv a b => a.kind.isBitVec ∧ a.kind = b.kind
  | .uneg a | .sneg a => a.kind.isBitVec
  | .conversion a target => a.kind.isBitVec ∧ target.isBitVec

theorem Fits.operand {c : RangeCheck Value} (h : c.Fits) :
    ∀ v ∈ c.operands, v.kind.isBitVec = true := by
  cases c with
  | uneg a | sneg a =>
    simp only [operands, List.mem_singleton, forall_eq]
    exact h
  | conversion a target =>
    simp only [operands, List.mem_singleton, forall_eq]
    exact h.1
  | _ =>
    obtain ⟨ha, hk⟩ := h
    simp only [operands, List.mem_cons, List.not_mem_nil, or_false, forall_eq_or_imp, forall_eq]
    exact ⟨ha, hk ▸ ha⟩

section Reports

variable {U : Type}

/-- The datum is a word of the kind. -/
def IsWord (k : Kind) (d : Datum U) : Prop :=
  ∃ (signed : Bool) (n : Nat) (x : BitVec n), k = .bitVec signed n ∧ d = .word x

variable {a b : Value} {d : Value → Datum U}

/-- What a predicate on two words reports, if it depends on the words alone. -/
theorem reports_binary {f : Value → Value → Build Overflow} (hc : a.kind = b.kind)
    (hd : ∀ v ∈ [a, b], IsWord v.kind (d v))
    (hf : ∀ (signed : Bool) (n : Nat) (x y : BitVec n), ∃ p q, ∀ (V : View U) (s : Scope)
      (v w : Value), s.Arena → V.Word s v signed x → V.Word s w signed y →
        V.Gives (f v w) s (V.Reports p q)) :
    ∃ p q, ∀ (V : View U) (s : Scope) (g : Value → Value), s.Arena →
      (∀ v ∈ [a, b], V.Denotes s (g v) v.kind (d v)) →
        V.Gives (f (g a) (g b)) s (V.Reports p q) := by
  obtain ⟨signed, n, x, ha, hx⟩ := hd a (by simp)
  obtain ⟨signed', n', y, hb, hy⟩ := hd b (by simp)
  obtain ⟨rfl, rfl⟩ : signed = signed' ∧ n = n' := by
    rw [ha, hb] at hc
    simpa using hc
  obtain ⟨p, q, hf⟩ := hf signed n x y
  refine ⟨p, q, fun V s g h hg => ?_⟩
  have hga := hg a (by simp)
  have hgb := hg b (by simp)
  rw [ha, hx] at hga
  rw [hb, hy] at hgb
  exact hf V s (g a) (g b) h hga hgb

theorem reports_unary {f : Value → Build Overflow} (hd : ∀ v ∈ [a], IsWord v.kind (d v))
    (hf : ∀ (signed : Bool) (n : Nat) (x : BitVec n), ∃ p q, ∀ (V : View U) (s : Scope) (v : Value),
      s.Arena → V.Word s v signed x → V.Gives (f v) s (V.Reports p q)) :
    ∃ p q, ∀ (V : View U) (s : Scope) (g : Value → Value), s.Arena →
      (∀ v ∈ [a], V.Denotes s (g v) v.kind (d v)) → V.Gives (f (g a)) s (V.Reports p q) := by
  obtain ⟨signed, n, x, ha, hx⟩ := hd a (by simp)
  obtain ⟨p, q, hf⟩ := hf signed n x
  refine ⟨p, q, fun V s g h hg => ?_⟩
  have hga := hg a (by simp)
  rw [ha, hx] at hga
  exact hf V s (g a) h hga

open View in
/-- What a predicate reports depends on its operands' words alone. -/
theorem reports {c : RangeCheck Value} (hc : c.Fits) (hd : ∀ v ∈ c.operands, IsWord v.kind (d v)) :
    ∃ p q, ∀ (V : View U) (s : Scope) (g : Value → Value), s.Arena →
      (∀ v ∈ c.operands, V.Denotes s (g v) v.kind (d v)) →
        V.Gives (c.map g).build s (V.Reports p q) := by
  cases c with
  | uadd a b => exact reports_binary hc.2 hd fun _ _ _ _ => ⟨_, _, fun _ _ _ _ h => gives_uadd h⟩
  | sadd a b => exact reports_binary hc.2 hd fun _ _ _ _ => ⟨_, _, fun _ _ _ _ h => gives_sadd h⟩
  | usub a b => exact reports_binary hc.2 hd fun _ _ _ _ => ⟨_, _, fun _ _ _ _ h => gives_usub h⟩
  | ssub a b => exact reports_binary hc.2 hd fun _ _ _ _ => ⟨_, _, fun _ _ _ _ h => gives_ssub h⟩
  | umul a b => exact reports_binary hc.2 hd fun _ _ _ _ => ⟨_, _, fun _ _ _ _ h => gives_umul h⟩
  | smul a b => exact reports_binary hc.2 hd fun _ _ _ _ => ⟨_, _, fun _ _ _ _ h => gives_smul h⟩
  | udiv a b => exact reports_binary hc.2 hd fun _ _ _ _ => ⟨_, _, fun _ _ _ _ h => gives_udiv h⟩
  | sdiv a b => exact reports_binary hc.2 hd fun _ _ _ _ => ⟨_, _, fun _ _ _ _ h => gives_sdiv h⟩
  | uneg a => exact reports_unary hd fun _ _ _ => ⟨_, _, fun _ _ _ h => gives_uneg h⟩
  | sneg a => exact reports_unary hd fun _ _ _ => ⟨_, _, fun _ _ _ h => gives_sneg h⟩
  | conversion a target =>
    cases target with
    | bitVec toSigned m =>
      exact reports_unary hd fun _ _ _ => ⟨_, _, fun _ _ _ h => gives_ofConversion h⟩
    | _ => exact absurd hc.2 Bool.false_ne_true

end Reports

end RangeCheck

section Agreement

variable {U : Type} (I : Interpretation U) (ρ : NodeId → Datum U)

/-- The literal is what the value stands for in the scope. -/
structure Scope.Evaluates (s : Scope) (v : Value) (c : Literal) : Prop where
  operand : v.WellFormed
  literal : c.WellFormed
  kind : c.kind = v.kind
  value : s.valueOf I ρ v = I.literal c

variable {I ρ}

/-- A literal of a word kind has a word. -/
theorem exists_word {c : Literal} (hc : c.WellFormed) (hk : c.kind.isBitVec = true) :
    ∃ d, I.literal c = some d ∧ RangeCheck.IsWord c.kind d := by
  cases hc.canonical with
  | @word signed n v => exact ⟨_, rfl, signed, n, _, rfl, rfl⟩
  | _ => cases hk

/-- Under a view of literals a truth value is known. -/
theorem View.Truth.eq_bool {V : View U} {s : Scope} {v : Value} {b : Bool} (h : V.Truth s v b)
    (hl : V.literal) : v = .bool b := by
  cases v with
  | concrete c =>
    have hk := h.kind
    cases Literal.WellFormed.canonical h.wellFormed with
    | bool b' =>
      have hv := h.value
      cases hv
      rfl
    | _ => cases hk
  | symbolic n k number => cases h.literal hl

end Agreement

namespace World

variable {U : Type} (I : Interpretation U) (ρ : NodeId → Datum U)

theorem Reachable.arena {w : World} (hw : w.Reachable) {s : Scope} (hs : s ∈ w.scopes) : s.Arena :=
  (hw.recorded.scopes s hs).arena

/-- The conditions on values of a scope evaluate to what the predicate computes on the literals that
they stand for, in any scope. -/
theorem conditions_agree {w w' : World} (hw : w.Reachable) (hw' : w'.Reachable) {s t : Scope}
    (hs : s ∈ w.scopes) (ht : t ∈ w'.scopes) {c : RangeCheck Value} (hc : c.Fits)
    {f : Value → Literal} (hf : ∀ v ∈ c.operands, s.Evaluates I ρ v (f v)) :
    ∃ o s' p q, outcome c.build s = (.ok o, s') ∧
      s'.valueOf I ρ o.underflow = some (.bool p) ∧ s'.valueOf I ρ o.overflow = some (.bool q) ∧
      outcome (c.map fun v => .concrete (f v)).build t = (.ok ⟨.bool p, .bool q⟩, t) := by
  let d (v : Value) : Datum U := (I.literal (f v)).getD (.bool false)
  have hd : ∀ v ∈ c.operands, I.literal (f v) = some (d v) ∧ RangeCheck.IsWord v.kind (d v) := by
    intro v hv
    have hk := hc.operand v hv
    rw [← (hf v hv).kind] at hk ⊢
    obtain ⟨x, hx, hword⟩ := exists_word (I := I) (hf v hv).literal hk
    simp only [d, hx, Option.getD_some]
    exact ⟨trivial, hword⟩
  obtain ⟨p, q, hreports⟩ := RangeCheck.reports hc fun v hv => (hd v hv).2
  obtain ⟨o, s', ho, -, -, hu, hv⟩ :=
    hreports ⟨I, ρ, False⟩ s id (hw.arena hs) fun v hv =>
      ⟨rfl, (hf v hv).value.trans (hd v hv).1, (hf v hv).operand, False.elim⟩
  obtain ⟨o', t', ho', -, hsame, hu', hv'⟩ :=
    hreports ⟨I, ρ, True⟩ t (fun v => .concrete (f v)) (hw'.arena ht) fun v hv =>
      ⟨(hf v hv).kind, (hd v hv).1, (hf v hv).literal, fun _ => rfl⟩
  rw [c.map_id] at ho
  obtain rfl : t' = t := hsame trivial
  obtain ⟨underflow, overflow⟩ := o'
  obtain rfl := hu'.eq_bool trivial
  obtain rfl := hv'.eq_bool trivial
  exact ⟨o, s', p, q, ho, hu.value, hv.value, ho'⟩

/-- A scope that asks for the solver's predicates, with one input. -/
def nativeInput : World :=
  (empty.next (.start { nativeMulOverflow := true })).next
    (.call 0 (.input .universal "x" (.signed 8)))

theorem nativeInput_reachable : nativeInput.Reachable :=
  .next (.next .empty trivial) (by simp [Supplies, Operation.operands])

/-- An interpretation of what the square of an input does not use. -/
def plainInterpretation : Interpretation Unit :=
  ⟨fun _ _ _ => (), fun _ _ _ => false, fun _ d => d, fun _ _ => .bool false, fun _ => 0,
    fun _ => 0⟩

/-- The overflow of the square of the input. -/
def squareCheck : RangeCheck Value := .smul (.symbolic 2 (.signed 8) 0) (.symbolic 2 (.signed 8) 0)

theorem squareCheck_evaluates : ∀ v ∈ squareCheck.operands,
    nativeInput.scopes[0].Evaluates plainInterpretation (fun _ => .word 100#8) v
      (.word true 8 100) := by
  intro v hv
  obtain rfl : v = .symbolic 2 (.signed 8) 0 := by simpa [squareCheck, RangeCheck.operands] using hv
  refine ⟨trivial, Literal.word_wellFormed true 8 100, rfl, ?_⟩
  have hs : nativeInput.scopes[0].Arena := nativeInput_reachable.arena (List.mem_singleton.2 rfl)
  have hinput : 2 ∈ nativeInput.scopes[0].inputIds := by decide
  exact (hs.valueOf_input hinput rfl).trans (plainInterpretation.literal_word true 8 100).symm

/-- The square of 100 does not fit: the solver's predicate on the input says so, as the encoding
does on the literal. -/
theorem conditions_agree_square :
    ∃ o s', outcome squareCheck.build nativeInput.scopes[0] = (.ok o, s') ∧
      s'.valueOf plainInterpretation (fun _ => .word 100#8) o.underflow = some (.bool false) ∧
      s'.valueOf plainInterpretation (fun _ => .word 100#8) o.overflow = some (.bool true) := by
  have hs : nativeInput.scopes[0] ∈ nativeInput.scopes := List.mem_singleton.2 rfl
  have hfits : squareCheck.Fits := ⟨rfl, rfl⟩
  obtain ⟨o, s', p, q, ho, hp, hq, hliteral⟩ := conditions_agree plainInterpretation
    (fun _ => .word 100#8) nativeInput_reachable nativeInput_reachable hs hs hfits
    squareCheck_evaluates
  have hrun : (outcome (squareCheck.map fun _ => Value.concrete (.word true 8 100)).build
      nativeInput.scopes[0]).1 = .ok ⟨.bool false, .bool true⟩ := by decide
  rw [hliteral] at hrun
  cases hrun
  exact ⟨o, s', ho, hp, hq⟩

end World

end SmtLowering
