import SmtLowering.Proofs.Arena

/-!
# Steps that keep an invariant

`Build.Keeps I m s P`: from the scope `s`, the step `m` only adds to the scope, keeps `I`, also when
it fails, and a result of it satisfies `P`. The rules follow the way steps are put together.

An operand need not come from the scope at hand. One that does names a node of it
(`Scope.Admits`); one that does not is refused, so what becomes an argument is a node of the scope
(`Scope.NodeOf`).
-/

namespace SmtLowering

namespace Scope

/-- If the value is one of the scope, its node is. -/
def Admits (s : Scope) : Value → Prop
  | .concrete _ => True
  | .symbolic n _ number => number = s.number → n < s.nodeCount

/-- The node that stands for a value: that of the constant, or the value's own. -/
def NodeOf (s : Scope) : Value → NodeId → Prop
  | .concrete c, n => (n, c) ∈ s.constants
  | .symbolic m _ number, n => number = s.number ∧ m < s.nodeCount ∧ n = m

variable {s t : Scope}

theorem Grows.admits (h : s.Grows t) {v : Value} (hv : s.Admits v) : t.Admits v := by
  cases v with
  | concrete c => trivial
  | symbolic n k number =>
    intro hn
    exact Nat.lt_of_lt_of_le (hv (hn.trans h.number)) h.nodeCount_le

theorem Grows.nodeOf (h : s.Grows t) {v : Value} {n : NodeId} (hv : s.NodeOf v n) :
    t.NodeOf v n := by
  cases v with
  | concrete c => exact h.constants.subset hv
  | symbolic m k number =>
    obtain ⟨hn, hm, rfl⟩ := hv
    exact ⟨hn.trans h.number.symm, Nat.lt_of_lt_of_le hm h.nodeCount_le, rfl⟩

theorem Grows.nodesOf (h : s.Grows t) {vs : List Value} {ns : List NodeId}
    (hv : List.Forall₂ s.NodeOf vs ns) : List.Forall₂ t.NodeOf vs ns :=
  hv.imp fun _ _ => h.nodeOf

theorem Arena.nodeOf_lt (h : s.Arena) {v : Value} {n : NodeId} (hv : s.NodeOf v n) :
    n < s.nodeCount := by
  cases v with
  | concrete c => exact h.constant_id_lt hv
  | symbolic m k number =>
    obtain ⟨-, hm, rfl⟩ := hv
    exact hm

theorem Arena.nodesOf_lt (h : s.Arena) {vs : List Value} {ns : List NodeId}
    (hv : List.Forall₂ s.NodeOf vs ns) : ∀ n ∈ ns, n < s.nodeCount := by
  induction hv with
  | nil => simp
  | cons hn _ ih =>
    intro m hm
    rcases List.mem_cons.1 hm with rfl | hm
    · exact h.nodeOf_lt hn
    · exact ih m hm

end Scope

namespace Build

variable {α β : Type} {I : Scope → Prop} {s : Scope}

def Keeps (I : Scope → Prop) (m : Build α) (s : Scope) (P : α → Scope → Prop) : Prop :=
  s.Grows (outcome m s).2 ∧ I (outcome m s).2 ∧ ∀ a, (outcome m s).1 = .ok a → P a (outcome m s).2

section Rules

variable {m : Build α} {P : α → Scope → Prop}

theorem keeps_pure (h : I s) {a : α} (ha : P a s) : Keeps I (pure a) s P := by
  refine ⟨.refl s, h, fun b hb => ?_⟩
  cases hb
  exact ha

theorem keeps_throw (h : I s) (f : Fault ValueError) : Keeps I (throw f) s P :=
  ⟨.refl s, h, fun _ hb => by cases hb⟩

theorem keeps_modify {f : Scope → Scope} {P : PUnit → Scope → Prop} (hg : s.Grows (f s))
    (h : I (f s)) (hp : P ⟨⟩ (f s)) : Keeps I (modify f) s P := by
  refine ⟨hg, h, fun a ha => ?_⟩
  cases ha
  exact hp

theorem keeps_get (h : I s) : Keeps I get s fun a t => a = s ∧ t = s := by
  refine ⟨.refl s, h, fun a ha => ?_⟩
  cases ha
  exact ⟨rfl, rfl⟩

theorem Keeps.bind {f : α → Build β} {Q : β → Scope → Prop} (h : Keeps I m s P)
    (hf : ∀ a t, s.Grows t → I t → P a t → Keeps I (f a) t Q) : Keeps I (m >>= f) s Q := by
  obtain ⟨hg, hi, hp⟩ := h
  unfold Keeps
  rw [outcome_bind]
  rcases ho : outcome m s with ⟨_ | a, t⟩ <;> rw [ho] at hg hi hp
  · exact ⟨hg, hi, fun _ hb => by cases hb⟩
  · obtain ⟨hg', hi', hq⟩ := hf a t hg hi (hp a rfl)
    exact ⟨hg.trans hg', hi', hq⟩

theorem Keeps.map {f : α → β} {Q : β → Scope → Prop} (h : Keeps I m s P)
    (hf : ∀ a t, s.Grows t → I t → P a t → Q (f a) t) : Keeps I (f <$> m) s Q := by
  rw [map_eq_pure_bind]
  exact h.bind fun a t hg hi hp => keeps_pure hi (hf a t hg hi hp)

theorem Keeps.imp {I' : Scope → Prop} {P' : α → Scope → Prop} (h : Keeps I m s P)
    (hi : ∀ t, I t → I' t) (hp : ∀ a t, s.Grows t → I t → P a t → P' a t) : Keeps I' m s P' :=
  ⟨h.1, hi _ h.2.1, fun a ha => hp a _ h.1 h.2.1 (h.2.2 a ha)⟩

theorem Keeps.and_outcome (h : Keeps I m s P) :
    Keeps I m s fun a t => P a t ∧ outcome m s = (.ok a, t) :=
  ⟨h.1, h.2.1, fun a ha => ⟨h.2.2 a ha, Prod.ext ha rfl⟩⟩

theorem Keeps.of_ok (h : Keeps I m s P) {a : α} {t : Scope} (ho : outcome m s = (.ok a, t)) :
    P a t := by
  have hp := h.2.2 a
  rw [ho] at hp
  exact hp rfl

theorem keeps_require (h : I s) (op : String) (a : Value) (ok : Bool) :
    Keeps I (require op a ok) s fun _ t => t = s ∧ ok = true := by
  unfold require
  split
  · exact keeps_pure h ⟨rfl, ‹_›⟩
  · exact keeps_throw h _

end Rules

section Nodes

variable (hA : ∀ t, I t → t.Arena)
include hA

theorem keeps_materialize (h : I s) {v : Value} (hv : s.Admits v)
    (hc : ∀ c, v = .concrete c → I (s.constant c).2) :
    Keeps I (materialize v) s fun n t => t.NodeOf v n := by
  cases v with
  | concrete c =>
    refine ⟨Scope.constant_grows s c, hc c rfl, fun n hn => ?_⟩
    cases hn
    exact (hA s h).constant_mem c
  | symbolic m k number =>
    refine (keeps_get h).bind fun t' t hg ht htt => ?_
    obtain ⟨rfl, rfl⟩ := htt
    split_ifs with hn
    · exact keeps_pure ht ⟨hn, hv hn, rfl⟩
    · exact keeps_throw ht _

theorem keeps_materializeAll {vs : List Value} {s : Scope} (h : I s) (hv : ∀ v ∈ vs, s.Admits v)
    (hc : ∀ c, .concrete c ∈ vs → ∀ t, s.Grows t → I t → I (t.constant c).2) :
    Keeps I (vs.mapM materialize) s fun ns t => List.Forall₂ t.NodeOf vs ns := by
  induction vs generalizing s with
  | nil => exact keeps_pure h .nil
  | cons v vs ih =>
    rw [List.mapM_cons]
    refine (keeps_materialize hA h (hv v List.mem_cons_self) fun c hcv =>
      hc c (hcv ▸ List.mem_cons_self) s (.refl s) h).bind fun n t hg ht hn => ?_
    refine (ih ht (fun u hu => hg.admits (hv u (List.mem_cons_of_mem _ hu)))
      fun c hcu u hu => hc c (List.mem_cons_of_mem _ hcu) u (hg.trans hu)).bind
      fun ns u hg' hu hns => ?_
    exact keeps_pure hu (.cons (hg'.nodeOf hn) hns)

end Nodes

end Build

end SmtLowering
