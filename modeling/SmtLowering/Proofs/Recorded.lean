import Mathlib.Logic.Relation
import SmtLowering.Proofs.Conformance
import SmtLowering.Proofs.Rules

/-!
# Reachable worlds

An operation on values gives an operand or a literal, or makes a node over operands
(`Primitive.plan_within`). So every scope of a reachable world has an arena in order and declares
the tables and arrays that its expressions name, and it keeps all that it holds
(`World.reachable_arena`).
-/

namespace SmtLowering

/-- The operator stands for a function, a table or an array that something else declares. -/
def Op.isNamed : Op → Bool
  | .apply _ | .table _ | .arrayRef _ => true
  | _ => false

/-- How many operands the operator has, if that is fixed. -/
def Op.arity? : Op → Option Nat
  | .apply _ => none
  | .arrayRef _ => some 0
  | .not | .neg | .zeroExtend _ | .signExtend _ | .extract .. | .testBit _ => some 1
  | .ite => some 3
  | _ => some 2

def Op.Takes (op : Op) (count : Nat) : Prop := ∀ n ∈ op.arity?, count = n

theorem Op.Kinded.isNamed {op : Op} {d k : Kind} {ks : List Kind} (h : op.Kinded d ks k) :
    op.isNamed = false := by
  cases h <;> rfl

theorem Op.Kinded.arity? {op : Op} {d k : Kind} {ks : List Kind} (h : op.Kinded d ks k) :
    op.arity? = some ks.length := by
  cases h <;> rfl

namespace Plan

/-- Only what is in `vs` is used, by an operator that the solver knows. -/
def Within (vs : List Value) : Plan → Prop
  | .give v => v.isConcrete ∨ v ∈ vs
  | .refuse _ => True
  | .node op _ us _ => us ⊆ vs ∧ op.isNamed = false ∧ op.arity? = some us.length

theorem Follows.within {vs : List Value} {k? : Option Kind} {p : Plan} (h : p.Follows vs k?) :
    p.Within vs := by
  cases h with
  | kindMismatch | invalidOperand | violation => trivial
  | truth | decided | foldedUnary | foldedBinary => exact .inl rfl
  | operand hv => exact .inr hv
  | node hus _ hk =>
    have hop := Op.kinded hk
    exact ⟨hus, hop.isNamed, by simpa using hop.arity?⟩

end Plan

theorem Primitive.plan_within (p : Primitive) : p.plan.Within p.operands := p.plan_follows.within

namespace Discipline

/-- The scope declares the table or array that the operator names. -/
def Declares (s : Scope) : Op → Prop
  | .table id => ∃ t ∈ s.tables, t.id = id
  | .arrayRef id => ∃ a ∈ s.arrays, a.id = id
  | _ => True

/-- Nodes are those of the scope, tables and arrays are declared and operators have their operands;
nothing is asked of literals. -/
def recorded : Discipline where
  literal _ := True
  node s n _ := n < s.nodeCount
  expr _ s e _ := Declares s e.op ∧ e.op.Takes e.args.length

theorem declares_grows {s t : Scope} (h : s.Grows t) {op : Op} (hop : Declares s op) :
    Declares t op := by
  cases op with
  | table id =>
    obtain ⟨tb, hm, hid⟩ := hop
    exact ⟨tb, h.tables.subset hm, hid⟩
  | arrayRef id =>
    obtain ⟨a, hm, hid⟩ := hop
    exact ⟨a, h.arrays.subset hm, hid⟩
  | _ => trivial

theorem recorded_allows {σ : Signatures} {F : Value → Prop} {s : Scope} {p : Plan}
    {vs : List Value} (hp : p.Within vs) (hv : ∀ v ∈ vs, recorded.Holds F s v) :
    recorded.Allows σ F s p := by
  cases p with
  | give v =>
    rcases hp with hp | hp
    · cases v with
      | concrete c => trivial
      | symbolic n k number => cases hp
    · exact hv v hp
  | refuse f => trivial
  | node op domain us k =>
    obtain ⟨hus, hop, har⟩ := hp
    refine ⟨fun v hm => hv v (hus hm), fun t ns _ _ hns => ⟨?_, fun n hn => ?_⟩⟩
    · cases op with
      | table id | arrayRef id => cases hop
      | _ => trivial
    · rw [har, Option.mem_some_iff, hns.length_eq] at hn
      exact hn

theorem recorded_lawful (σ : Signatures) (F : Value → Prop) : recorded.Lawful σ F where
  bool _ := trivial
  node_lt h := h
  node_grows hg h := Nat.lt_of_lt_of_le h hg.nodeCount_le
  expr_grows hg h := ⟨declares_grows hg h.1, h.2⟩
  issued h := (List.getElem?_eq_some_iff.1 h).1
  reissued h hn _ := h.arena.target_id_lt hn
  primitive p _ hv := recorded_allows p.plan_within hv
  apply _ hv _ := ⟨hv, fun _ _ _ _ _ => ⟨trivial, fun _ hn => by cases hn⟩⟩
  table _ hi hf hm := by
    refine ⟨?_, fun t ns hg _ hns => ⟨⟨_, hg.tables.subset hm, rfl⟩, fun n hn => ?_⟩⟩
    · simp [hi, hf]
    · cases hn
      exact hns.length_eq.symm
  array _ ha := ⟨⟨_, ha, rfl⟩, fun _ hn => by cases hn; rfl⟩

end Discipline

namespace World

/-- One supplied event leads from `w` to `w'`. -/
def Moves (w w' : World) : Prop := ∃ e, w.Supplies e ∧ w' = w.next e

theorem Grows.trans {u v w : World} (h : u.Grows v) (h' : v.Grows w) : u.Grows w := by
  intro i s hs
  obtain ⟨t, ht, hst⟩ := h i s hs
  obtain ⟨r, hr, htr⟩ := h' i t ht
  exact ⟨r, hr, hst.trans htr⟩

theorem recorded_next {w : World} (h : w.Conforms .recorded) {e : Event} (he : w.Supplies e) :
    (w.next e).Conforms .recorded ∧ w.Grows (w.next e) := by
  refine h.next Discipline.recorded_lawful he ?_ fun _ _ _ _ _ hx => hx
  cases e with
  | call i o => exact fun _ _ => trivial
  | _ => trivial

theorem Reachable.recorded {w : World} (h : w.Reachable) : w.Conforms .recorded := by
  induction h with
  | empty => exact empty_conforms _
  | next _ he ih => exact (recorded_next ih he).1

/-- In a reachable world every arena is in order, and whatever follows only adds to the scopes. -/
theorem reachable_arena {w : World} (h : w.Reachable) :
    (∀ s ∈ w.scopes, s.Arena) ∧ ∀ w', Relation.ReflTransGen Moves w w' → w.Grows w' := by
  refine ⟨fun s hs => (h.recorded.scopes s hs).arena, fun w' hw' => ?_⟩
  have hboth : w'.Conforms .recorded ∧ w.Grows w' := by
    induction hw' with
    | refl => exact ⟨h.recorded, .refl w⟩
    | tail _ hm ih =>
      obtain ⟨e, he, rfl⟩ := hm
      obtain ⟨hc, hg⟩ := recorded_next ih.1 he
      exact ⟨hc, ih.2.trans hg⟩
  exact hboth.2

/-- An input at the outermost level, then a fork. -/
def forkedAfterInput : World :=
  ((empty.next (.start {})).next (.call 0 (.input .universal "x" (.unsigned 8)))).next
    (.fork 0 .lambda)

/-- In the fork, a sum whose second operand is not of the fork; its first one becomes a constant. -/
def foreignSum : Event :=
  .call 1 (.primitive (.add (.concrete (.word false 8 1)) (.symbolic 2 (.unsigned 8) 0)))

theorem forkedAfterInput_reachable : forkedAfterInput.Reachable :=
  .next (.next (.next .empty trivial) (by simp [Supplies, Operation.operands])) trivial

theorem foreignSum_supplied : forkedAfterInput.Supplies foreignSum := by
  have hi : forkedAfterInput.issued = [.symbolic 2 (.unsigned 8) 0] := by decide
  simp [Supplies, foreignSum, Operation.operands, Primitive.operands, Value.isConcrete, hi]

theorem reachable_arena_foreignSum :
    (∀ s ∈ forkedAfterInput.scopes, s.Arena) ∧
      forkedAfterInput.Grows (forkedAfterInput.next foreignSum) :=
  ⟨(reachable_arena forkedAfterInput_reachable).1,
    (reachable_arena forkedAfterInput_reachable).2 _
      (.single ⟨foreignSum, foreignSum_supplied, rfl⟩)⟩

end World

end SmtLowering
