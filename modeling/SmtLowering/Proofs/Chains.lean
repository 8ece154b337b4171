import SmtLowering.Proofs.Reading

/-!
# Chains of bindings

A chain is evaluated in the environment that its bindings build up one by one (`eval_chain`). Where
the right sides are the literals of constants and then the terms of assignments, in the order a
trace has them, every name comes to have the value of its node (`Knows.constants`,
`Knows.assignments`) and nothing is used before it is bound (`closed_constants`,
`closed_assignments`).
-/

namespace SmtLowering

section Values

variable {U : Type} {I : Interpretation U}

/-- The environment with the bindings added, each evaluated in what is there before it. -/
noncomputable def extend (I : Interpretation U) (env : Term.Env U) (bs : List (String × Term)) :
    Term.Env U :=
  bs.foldl (fun env b => (b.1, b.2.eval I env) :: env) env

theorem eval_chain (bs : List (String × Term)) (output : String) (env : Term.Env U) :
    (chain bs output).eval I env = (Term.name output).eval I (extend I env bs) := by
  induction bs generalizing env with
  | nil => rfl
  | cons b bs ih =>
    show (chain bs output).eval I ((b.1, b.2.eval I env) :: env) = _
    rw [ih]
    rfl

theorem eval_name_self (x : String) (d : Option (Datum U)) (env : Term.Env U) :
    (Term.name x).eval I ((x, d) :: env) = d := by
  simp only [Term.eval, List.lookup_cons_self]

theorem lookup_cons_ne {x y : String} (h : y ≠ x) (d : Option (Datum U)) (env : Term.Env U) :
    List.lookup y ((x, d) :: env) = env.lookup y := by
  rw [List.lookup_cons, beq_eq_false_iff_ne.2 h]

theorem eval_name_ne {x y : String} (h : y ≠ x) (d : Option (Datum U)) (env : Term.Env U) :
    (Term.name y).eval I ((x, d) :: env) = (Term.name y).eval I env := by
  simp only [Term.eval, lookup_cons_ne h]

/-- The bindings of nodes by their names. -/
def named (level : Nat) (bs : List (NodeId × Term)) : List (String × Term) :=
  bs.map fun p => (NodeId.smtName level p.1, p.2)

/-- In the environment the names of the nodes in `K` have their values, and the functions are not
bound. -/
structure Knows (I : Interpretation U) (level : Nat) (fns : List String)
    (v : NodeId → Option (Datum U)) (env : Term.Env U) (K : NodeId → Prop) : Prop where
  value : ∀ m, K m → (Term.name (NodeId.smtName level m)).eval I env = v m
  free : ∀ f ∈ fns, env.lookup f = none

namespace Knows

variable {level : Nat} {fns : List String} {v : NodeId → Option (Datum U)} {env : Term.Env U}
  {K K' : NodeId → Prop}

theorem mono (h : Knows I level fns v env K) (hK : ∀ m, K' m → K m) :
    Knows I level fns v env K' :=
  ⟨fun m hm => h.value m (hK m hm), h.free⟩

theorem bind (h : Knows I level fns v env K) (hfns : ∀ f ∈ fns, ∀ n, f ≠ NodeId.smtName level n)
    {n : NodeId} {d : Option (Datum U)} (hd : d = v n) :
    Knows I level fns v ((NodeId.smtName level n, d) :: env) fun m => m = n ∨ K m := by
  refine ⟨fun m hm => ?_, fun f hf => ?_⟩
  · by_cases hmn : m = n
    · rw [hmn, eval_name_self, hd]
    · rw [eval_name_ne fun he => hmn (NodeId.smtName_injective he)]
      exact h.value m (hm.resolve_left hmn)
  · rw [lookup_cons_ne (hfns f hf n)]
    exact h.free f hf

theorem constants (h : Knows I level fns v env K)
    (hfns : ∀ f ∈ fns, ∀ n, f ≠ NodeId.smtName level n) {cs : List (NodeId × Literal)}
    (hv : ∀ p ∈ cs, v p.1 = I.literal p.2) :
    Knows I level fns v (extend I env (named level (cs.map fun p => (p.1, .literal p.2))))
      fun m => m ∈ cs.map (·.1) ∨ K m := by
  induction cs generalizing env K with
  | nil => exact h.mono fun m hm => hm.resolve_left (by simp)
  | cons p cs ih =>
    have hp := hv p List.mem_cons_self
    have hstep := h.bind hfns (n := p.1) (d := (Term.literal p.2).eval I env) (hp ▸ rfl)
    refine (ih hstep fun q hq => hv q (List.mem_cons_of_mem _ hq)).mono fun m hm => ?_
    simp only [List.map_cons, List.mem_cons] at hm
    tauto

theorem assignments {count : Nat} {as : List (NodeId × Expr)}
    (h : Knows I level fns v env fun m => m < count ∧ m ∉ as.map (·.1))
    (hfns : ∀ f ∈ fns, ∀ n, f ≠ NodeId.smtName level n) (htheory : ∀ f ∈ fns, f ∉ theoryNames)
    (hinc : (as.map (·.1)).Pairwise (· < ·)) (hlt : ∀ p ∈ as, p.1 < count)
    (hargs : ∀ p ∈ as, ∀ a ∈ p.2.args, a < p.1) (hems : ∀ p ∈ as, p.2.Emittable fns)
    (hv : ∀ p ∈ as, v p.1 = Graph.exprValue I v p.2) :
    Knows I level fns v
      (extend I env (named level (as.map fun p => (p.1, p.2.term (NodeId.smtName level)))))
      fun m => m < count := by
  induction as generalizing env with
  | nil => exact h.mono fun m hm => ⟨hm, by simp⟩
  | cons p as ih =>
    rw [List.map_cons, List.pairwise_cons] at hinc
    have hp := List.mem_cons_self (a := p) (l := as)
    have hvalue : (p.2.term (NodeId.smtName level)).eval I env = v p.1 := by
      rw [hv p hp]
      refine Expr.eval_term (hems p hp) htheory h.free fun a ha => h.value a ?_
      have hap := hargs p hp a ha
      refine ⟨Nat.lt_trans hap (hlt p hp), ?_⟩
      simp only [List.map_cons, List.mem_cons, not_or]
      exact ⟨Nat.ne_of_lt hap, fun hmem => Nat.lt_asymm hap (hinc.1 a hmem)⟩
    have hstep := h.bind hfns hvalue
    refine ih (hstep.mono fun m hm => ?_) hinc.2 (fun q hq => hlt q (List.mem_cons_of_mem _ hq))
      (fun q hq => hargs q (List.mem_cons_of_mem _ hq))
      (fun q hq => hems q (List.mem_cons_of_mem _ hq))
      fun q hq => hv q (List.mem_cons_of_mem _ hq)
    by_cases hmp : m = p.1
    · exact .inl hmp
    · refine .inr ⟨hm.1, ?_⟩
      simp only [List.map_cons, List.mem_cons, not_or]
      exact ⟨hmp, hm.2⟩

end Knows

end Values

section Scopes

variable {level : Nat} {fns vars : List String} {output : String}

theorem closed_constants {cs : List (NodeId × Literal)} {bs : List (String × Term)}
    (h : (chain bs output).ClosedOver
      ((cs.map fun p => NodeId.smtName level p.1).reverse ++ vars) fns) :
    (chain (named level (cs.map fun p => (p.1, .literal p.2)) ++ bs) output).ClosedOver
      vars fns := by
  induction cs generalizing vars with
  | nil => exact h
  | cons p cs ih =>
    refine ⟨trivial, ih ?_⟩
    rw [List.map_cons, List.reverse_cons, List.append_assoc] at h
    exact h

theorem closed_assignments {count : Nat} {as : List (NodeId × Expr)} {n : NodeId}
    (h : ∀ m, m < count → m ∉ as.map (·.1) →
      NodeId.smtName level m ∈ vars ∨ NodeId.smtName level m ∈ theoryNames)
    (hinc : (as.map (·.1)).Pairwise (· < ·)) (hlt : ∀ p ∈ as, p.1 < count)
    (hargs : ∀ p ∈ as, ∀ a ∈ p.2.args, a < p.1) (hems : ∀ p ∈ as, p.2.Emittable fns)
    (hn : n < count) :
    (chain (named level (as.map fun p => (p.1, p.2.term (NodeId.smtName level))))
      (NodeId.smtName level n)).ClosedOver vars fns := by
  induction as generalizing vars with
  | nil =>
    rcases h n hn (by simp) with h | h
    · exact .inl h
    · exact .inr (.inl h)
  | cons p as ih =>
    rw [List.map_cons, List.pairwise_cons] at hinc
    have hp := List.mem_cons_self (a := p) (l := as)
    refine ⟨Expr.closed_term (hems p hp) fun a ha => ?_, ih (fun m hm hmem => ?_) hinc.2
      (fun q hq => hlt q (List.mem_cons_of_mem _ hq))
      (fun q hq => hargs q (List.mem_cons_of_mem _ hq))
      fun q hq => hems q (List.mem_cons_of_mem _ hq)⟩
    · have hap := hargs p hp a ha
      refine h a (Nat.lt_trans hap (hlt p hp)) ?_
      simp only [List.map_cons, List.mem_cons, not_or]
      exact ⟨Nat.ne_of_lt hap, fun hmem => Nat.lt_asymm hap (hinc.1 a hmem)⟩
    · by_cases hmp : m = p.1
      · rw [hmp]
        exact .inl List.mem_cons_self
      · have hm' := h m hm (by simp only [List.map_cons, List.mem_cons, not_or]; exact ⟨hmp, hmem⟩)
        exact hm'.imp_left fun hv => List.mem_cons_of_mem _ hv

end Scopes

end SmtLowering
