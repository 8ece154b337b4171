import Mathlib.Data.List.Nodup
import SmtLowering.Proofs.Scripts

/-!
# How often a name is defined

A definition and the signature that makes it callable are registered together, in branches of one
number (`Session.Pairs`), so a name is callable exactly when it is defined, at the signature of its
last definition (`Session.Coherent`). A lowering to a function finds its name undefined when it
begins. It may be defined by the time the lowering ends only if another lowering to the name was
begun and ended in between, in the same registry, and then the name is one of the caller's overlaps
(`Script.Moves`). Any other name is defined at most once in a registry (`Script.met_registered`).
-/

namespace SmtLowering

namespace Branches

variable {α : Type} [Inhabited α] (bs : Branches α)

theorem get_update_ne {i j : Nat} (h : j ≠ i) (f : α → α) : (bs.update i f).get j = bs.get j := by
  simp [get, update, List.getD_eq_getElem?_getD, Ne.symm h]

theorem get_add (a : α) (j : Nat) :
    (bs.add a).2.get j = if j = bs.contents.length then a else bs.get j := by
  split_ifs with h
  · rw [h, get_add_self]
  · rcases Nat.lt_or_ge j bs.contents.length with hlt | hge
    · exact bs.get_add_of_lt a hlt
    · have hnone : (bs.contents ++ [a])[j]? = none := by
        rw [List.getElem?_eq_none_iff, List.length_append, List.length_singleton]
        omega
      simp [get, add, List.getD_eq_getElem?_getD, hnone, hge]

end Branches

section Definitions

/-- The last definition of a name. -/
def lastNamed (ds : List Declaration) (f : String) : Option Declaration :=
  ds.reverse.find? (·.name = f)

variable {ds : List Declaration} {d : Declaration} {f : String}

theorem lastNamed_append_self : lastNamed (ds ++ [d]) d.name = some d := by
  simp [lastNamed]

theorem lastNamed_append_ne (h : f ≠ d.name) : lastNamed (ds ++ [d]) f = lastNamed ds f := by
  simp [lastNamed, Ne.symm h]

theorem lastNamed_eq_none : lastNamed ds f = none ↔ f ∉ ds.map (·.name) := by
  simp [lastNamed]

theorem mem_of_lastNamed (h : lastNamed ds f = some d) : d ∈ ds ∧ d.name = f := by
  rw [lastNamed] at h
  exact ⟨List.mem_reverse.1 (List.mem_of_find?_eq_some h), by simpa using List.find?_some h⟩

theorem eq_of_count_le_one {d' : Declaration} (hd : d ∈ ds) (hd' : d' ∈ ds) (h : d.name = d'.name)
    (hcount : (ds.map (·.name)).count d.name ≤ 1) : d = d' := by
  rw [List.count_eq_countP, List.countP_map, List.countP_eq_length_filter] at hcount
  have hm : d ∈ ds.filter ((· == d.name) ∘ (·.name)) := List.mem_filter.2 ⟨hd, beq_self_eq_true _⟩
  have hm' : d' ∈ ds.filter ((· == d.name) ∘ (·.name)) :=
    List.mem_filter.2 ⟨hd', beq_iff_eq.2 h.symm⟩
  rcases hf : ds.filter ((· == d.name) ∘ (·.name)) with _ | ⟨e, _ | ⟨e', es⟩⟩
  · rw [hf] at hm
    cases hm
  · rw [hf, List.mem_singleton] at hm hm'
    rw [hm, hm']
  · rw [hf] at hcount
    simp at hcount

end Definitions

namespace Session

/-- The scope's callable functions and its definitions are branches of one number, which the session
has. -/
def Pairs (s : Session) (b : BranchIds) : Prop :=
  b.userFunctions = b.definitions ∧ b.definitions < s.definitions.contents.length

/-- The scope's registry has a definition of the name. -/
def Defines (s : Session) (b : BranchIds) (f : String) : Prop :=
  f ∈ (s.definitions.get b.definitions).map (·.name)

/-- In each branch what is callable is what is defined, at the signature of the last definition, and
no name but overlaps is defined twice. -/
structure Coherent (s : Session) (overlaps : List String) : Prop where
  lengths : s.userFunctions.contents.length = s.definitions.contents.length
  agree : ∀ i f, (s.userFunctions.get i).find? f =
    (lastNamed (s.definitions.get i) f).map Declaration.signature
  once : ∀ i, ∀ f ∉ overlaps, ((s.definitions.get i).map (·.name)).count f ≤ 1

variable {s s' : Session} {overlaps : List String} {parent child : Scope} {purpose : Purpose}

theorem Coherent.mono (h : s.Coherent overlaps) {overlaps' : List String}
    (hs : overlaps ⊆ overlaps') : s.Coherent overlaps' :=
  { h with once := fun i f hf => h.once i f fun hm => hf (hs hm) }

theorem Coherent.of_same (h : s.Coherent overlaps) (hf : s'.userFunctions = s.userFunctions)
    (hd : s'.definitions = s.definitions) : s'.Coherent overlaps := by
  refine ⟨?_, ?_, ?_⟩
  · rw [hf, hd]
    exact h.lengths
  · rw [hf, hd]
    exact h.agree
  · rw [hd]
    exact h.once

theorem Pairs.mono {b : BranchIds} (h : s.Pairs b)
    (hl : s.definitions.contents.length ≤ s'.definitions.contents.length) : s'.Pairs b :=
  ⟨h.1, Nat.lt_of_lt_of_le h.2 hl⟩

/-- A fork keeps a session coherent, and what was defined stays as it was. -/
theorem Coherent.fork (h : s.Coherent overlaps) (hp : s.Pairs parent.branches)
    (hf : s.fork parent purpose = .ok (child, s')) :
    s'.Coherent overlaps ∧ s'.Pairs child.branches ∧
      s.definitions.contents.length ≤ s'.definitions.contents.length ∧
      ∀ i < s.definitions.contents.length, s'.definitions.get i = s.definitions.get i := by
  by_cases hn : purpose = .named
  · subst hn
    obtain ⟨rfl, rfl⟩ := Session.fork_named hf
    have hlength {α : Type} (bs : Branches α) (a : α) :
        (bs.add a).2.contents.length = bs.contents.length + 1 := by simp [Branches.add]
    refine ⟨⟨?_, fun i f => ?_, fun i f hf => ?_⟩, ?_, ?_, fun i hi => ?_⟩
    · simp only [hlength, h.lengths]
    · simp only [Branches.get_add, h.lengths]
      split_ifs
      · rw [h.agree, hp.1]
      · exact h.agree i f
    · simp only [Branches.get_add]
      split_ifs
      · exact h.once _ f hf
      · exact h.once i f hf
    · rw [Scope.blank_eq]
      exact ⟨h.lengths, by simp only [hlength]; omega⟩
    · simp only [hlength]
      omega
    · exact s.definitions.get_add_of_lt _ hi
  · obtain ⟨rfl, rfl, -⟩ := Session.fork_shared hf hn
    rw [Scope.blank_eq]
    exact ⟨h.of_same rfl rfl, hp, Nat.le_refl _, fun _ _ => rfl⟩

section Register

variable {d : Declaration}

theorem definitions_register (s : Session) (parent : Scope) (sig : Signature) (d : Declaration)
    (i : Nat) (hlt : parent.branches.definitions < s.definitions.contents.length) :
    (Workspace.registerDefinition ⟨s, parent⟩ sig d).session.definitions.get i =
      if i = parent.branches.definitions then s.definitions.get i ++ [d]
      else s.definitions.get i := by
  split_ifs with hi
  · subst hi
    exact Branches.get_update_self _ hlt _
  · exact Branches.get_update_ne _ hi _

/-- A definition may be registered if its name is new or an overlap. -/
theorem Coherent.register (h : s.Coherent overlaps) (hp : s.Pairs parent.branches)
    (hd : s.Defines parent.branches d.name → d.name ∈ overlaps) :
    (Workspace.registerDefinition ⟨s, parent⟩ d.signature d).session.Coherent overlaps := by
  obtain ⟨hb, hlt⟩ := hp
  refine ⟨?_, fun i f => ?_, fun i f hf => ?_⟩
  · simp only [Workspace.registerDefinition, Branches.length_update, h.lengths]
  · rw [definitions_register s parent _ d i hlt]
    simp only [Workspace.registerDefinition, hb]
    split_ifs with hi
    · subst hi
      rw [Branches.get_update_self _ (h.lengths ▸ hlt)]
      by_cases hf : f = d.name
      · subst hf
        rw [NameTable.find?_insert_self, lastNamed_append_self]
        rfl
      · rw [NameTable.find?_insert_ne _ hf, lastNamed_append_ne hf, h.agree]
    · rw [Branches.get_update_ne _ hi, h.agree]
  · rw [definitions_register s parent _ d i hlt]
    split_ifs with hi
    · subst hi
      rw [List.map_append, List.count_append, List.map_singleton, List.count_singleton]
      split_ifs with hfd
      · have hnew : ¬s.Defines parent.branches f := by
          intro hdef
          rw [beq_iff_eq] at hfd
          subst hfd
          exact hf (hd hdef)
        exact Nat.le_of_eq (by rw [List.count_eq_zero_of_not_mem hnew])
      · exact h.once _ f hf
    · exact h.once i f hf

theorem defines_register {b : BranchIds} {f : String}
    (hlt : parent.branches.definitions < s.definitions.contents.length)
    (h : (Workspace.registerDefinition ⟨s, parent⟩ d.signature d).session.Defines b f) :
    s.Defines b f ∨ b.definitions = parent.branches.definitions ∧ f = d.name := by
  unfold Defines at h ⊢
  rw [definitions_register s parent _ d _ hlt] at h
  split_ifs at h with hi
  · rw [List.map_append, List.mem_append, List.map_singleton, List.mem_singleton] at h
    exact h.imp_right fun hf => ⟨hi, hf⟩
  · exact .inl h

end Register

end Session

/-- What is callable in the workspace is what is defined, at the signature of the last definition,
and no name but overlaps is defined twice. -/
structure Workspace.Registered (w : Workspace) (overlaps : List String) : Prop where
  agree : ∀ f, w.userFunctions.find? f = (lastNamed w.definitions f).map Declaration.signature
  once : ∀ f ∉ overlaps, (w.definitions.map (·.name)).count f ≤ 1

theorem Session.Coherent.registered {s : Session} {overlaps : List String} {scope : Scope}
    (h : s.Coherent overlaps) (hp : s.Pairs scope.branches) :
    Workspace.Registered ⟨s, scope⟩ overlaps := by
  refine ⟨fun f => ?_, h.once scope.branches.definitions⟩
  simp only [Workspace.userFunctions, Workspace.definitions, hp.1]
  exact h.agree _ f

namespace Script

/-- Between two steps of a script, below the lowerings of `frames`. -/
structure Sound (frames : Frames) (w : Workspace) (σ : Caller) : Prop where
  coherent : w.session.Coherent σ.overlaps
  here : w.session.Pairs w.scope.branches
  outer : ∀ p ∈ frames, w.session.Pairs p.1.branches
  held : ∀ s ∈ σ.held, w.session.Pairs s.branches
  met : ∀ m ∈ σ.met, m.1.Registered m.2 ∧ m.2 ⊆ σ.overlaps

/-- What steps of a script do below the lowerings of `frames`: a name that one of these is to define
may get defined in the meantime, but is an overlap then. If the steps lower inward only, there are
no new overlaps. -/
structure Moves (inward : Prop) (frames : Frames) (w : Workspace) (σ : Caller) (w' : Workspace)
    (σ' : Caller) : Prop where
  sound : Sound frames w' σ'
  branches : w'.scope.branches = w.scope.branches
  overlaps : σ.overlaps ⊆ σ'.overlaps
  none_new : inward → frames.pending w.scope = [] → σ'.overlaps = σ.overlaps
  length_le :
    w.session.definitions.contents.length ≤ w'.session.definitions.contents.length
  pending : ∀ p ∈ frames, ∀ f, p.2.name? = some f → ¬w.session.Defines p.1.branches f →
    w'.session.Defines p.1.branches f → f ∈ σ'.overlaps

variable {inward : Prop} {frames : Frames} {w w' w'' : Workspace} {σ σ' σ'' : Caller}

theorem pending_congr {s s' : Scope} (h : s'.branches = s.branches) :
    frames.pending s' = frames.pending s := by
  rw [Frames.pending, h, Frames.pending]

theorem Moves.refl (h : Sound frames w σ) : Moves inward frames w σ w σ :=
  ⟨h, rfl, fun _ hf => hf, fun _ _ => rfl, Nat.le_refl _, fun _ _ _ _ hn hd => (hn hd).elim⟩

theorem Moves.trans (h : Moves inward frames w σ w' σ') (h' : Moves inward frames w' σ' w'' σ'') :
    Moves inward frames w σ w'' σ'' where
  sound := h'.sound
  branches := h'.branches.trans h.branches
  overlaps := fun _ hf => h'.overlaps (h.overlaps hf)
  none_new hi hp :=
    (h'.none_new hi ((pending_congr h.branches).trans hp)).trans (h.none_new hi hp)
  length_le := Nat.le_trans h.length_le h'.length_le
  pending p hp f hf hn hd := by
    by_cases hm : w'.session.Defines p.1.branches f
    · exact h'.overlaps (h.pending p hp f hf hn hm)
    · exact h'.pending p hp f hf hm hd

/-- A step that registers nothing. -/
theorem Moves.of_same (h : Sound frames w σ)
    (hf : w'.session.userFunctions = w.session.userFunctions)
    (hd : w'.session.definitions = w.session.definitions)
    (hb : w'.scope.branches = w.scope.branches) (ho : σ'.overlaps = σ.overlaps)
    (hheld : ∀ s ∈ σ'.held, ∃ r ∈ σ.held, s.branches = r.branches)
    (hmet : ∀ m ∈ σ'.met, m ∈ σ.met ∨ m.1.Registered m.2 ∧ m.2 ⊆ σ.overlaps) :
    Moves inward frames w σ w' σ' := by
  have hpairs {b : BranchIds} (hp : w.session.Pairs b) : w'.session.Pairs b :=
    hp.mono (Nat.le_of_eq (by rw [hd]))
  refine ⟨⟨ho ▸ h.coherent.of_same hf hd, hb ▸ hpairs h.here,
    fun p hp => hpairs (h.outer p hp), fun s hs => ?_,
    fun m hm => ho ▸ (hmet m hm).elim (h.met m) id⟩, hb, ho ▸ List.Subset.refl _, fun _ _ => ho,
    Nat.le_of_eq (by rw [hd]), fun p _ f _ hn hdef => (hn ?_).elim⟩
  · obtain ⟨r, hr, hsr⟩ := hheld s hs
    exact hsr ▸ hpairs (h.held r hr)
  · unfold Session.Defines at hdef ⊢
    rwa [hd] at hdef

/-- A step that registers nothing and does not touch what the caller has. -/
theorem Moves.of_idle (h : Sound frames w σ)
    (hf : w'.session.userFunctions = w.session.userFunctions)
    (hd : w'.session.definitions = w.session.definitions)
    (hb : w'.scope.branches = w.scope.branches) : Moves inward frames w σ w' σ :=
  .of_same h hf hd hb rfl (fun s hs => ⟨s, hs, rfl⟩) fun _ hm => .inl hm

/-- The step leads from the workspace and the caller's state as `Moves` says. -/
abbrev Leads {α : Type} (inward : Prop) (frames : Frames) (x : ScriptT α) (w : Workspace)
    (σ : Caller) : Prop :=
  Moves inward frames w σ (x w σ).1.2 (x w σ).2

theorem Leads.bind {α β : Type} {x : ScriptT α} {f : α → ScriptT β}
    (hx : Leads inward frames x w σ)
    (hf : ∀ a w' σ', x w σ = ((.ok a, w'), σ') → Sound frames w' σ' →
      Leads inward frames (f a) w' σ') :
    Leads inward frames (x >>= f) w σ := by
  unfold Leads at hx ⊢
  rw [bind_run]
  rcases hxw : x w σ with ⟨⟨_ | a, w'⟩, σ'⟩ <;> rw [hxw] at hx
  · exact hx
  · exact hx.trans (hf a w' σ' hxw hx.sound)

section Steps

variable {o : Operation} {s : Scope} {t : Target}

/-- An operation that registers nothing, in any scope. -/
theorem registries_attempt (ho : o.registers = false) (s : Scope) (w : Workspace) :
    let w' := (outcome (Work.attempt o.run) ⟨w.session, s⟩).2
    w'.session.userFunctions = w.session.userFunctions ∧
      w'.session.definitions = w.session.definitions ∧ w'.scope.branches = s.branches := by
  obtain ⟨hf, hd⟩ := Computation.carries_unregistered.operate o ⟨w.session, s⟩ ho
  have hb := (o.scopeStep_grows ⟨w.session, s⟩).branches
  simp only [Work.attempt_workspace]
  rw [Operation.outcome_run] at hf hd ⊢
  exact ⟨hf, hd, hb⟩

theorem leads_operate (h : Sound frames w σ) (ho : o.registers = false) :
    Leads inward frames (Work.lift (Work.attempt o.run)) w σ := by
  rw [Leads, lift_run]
  obtain ⟨hf, hd, hb⟩ := registries_attempt ho w.scope w
  exact .of_idle h hf hd hb

theorem leads_visitStep (h : Sound frames w σ) (ho : o.registers = false) (k : Nat) :
    Leads inward frames (visitStep k o) w σ := by
  unfold Leads visitStep
  rcases hk : σ.held[k]? with _ | s
  · exact .refl h
  · obtain ⟨hf, hd, hb⟩ := registries_attempt ho s w
    refine Moves.of_same h hf hd rfl rfl (fun r hr => ?_) fun m hm => .inl hm
    rcases List.mem_or_eq_of_mem_set hr with hr | rfl
    · exact ⟨r, hr, rfl⟩
    · exact ⟨s, List.mem_of_getElem? hk, hb⟩

/-- A place that there is changes nothing. -/
theorem leads_place {α : Type} {f : Scope → ScriptT α} (h : Sound frames w σ) (p : Place)
    (hf : ∀ s, w.session.Pairs s.branches → (p = .here → s = w.scope) →
      Leads inward frames (f s) w σ) :
    Leads inward frames (place frames p >>= f) w σ := by
  unfold Leads
  rw [bind_run]
  cases p with
  | here => exact hf w.scope h.here fun _ => rfl
  | outer k =>
    rcases hk : frames[k]? with _ | ⟨s, t⟩
    · simp only [place, hk]
      exact .refl h
    · simp only [place, hk]
      exact hf s (h.outer _ (List.mem_of_getElem? hk)) fun hp => by cases hp
  | held k =>
    rcases hk : σ.held[k]? with _ | s
    · simp only [place, hk]
      exact .refl h
    · simp only [place, hk]
      exact hf s (h.held s (List.mem_of_getElem? hk)) fun hp => by cases hp

theorem leads_look (h : Sound frames w σ) (hs : w.session.Pairs s.branches) :
    Leads inward frames (look s) w σ := by
  refine Moves.of_same h rfl rfl rfl rfl (fun r hr => ⟨r, hr, rfl⟩) fun m hm => ?_
  rcases List.mem_append.1 hm with hm | hm
  · exact .inl hm
  · obtain rfl := List.mem_singleton.1 hm
    exact .inr ⟨h.coherent.registered hs, List.Subset.refl _⟩

/-- What a scope with its registries in the session defines after a fork, it did before. -/
theorem defines_of_fork {session : Session} {b : BranchIds} {f : String}
    (hsame : ∀ i < w.session.definitions.contents.length,
      session.definitions.get i = w.session.definitions.get i)
    (hb : w.session.Pairs b) (h : session.Defines b f) : w.session.Defines b f := by
  unfold Session.Defines at h ⊢
  rwa [hsame _ hb.2] at h

theorem leads_hold (h : Sound frames w σ) (hs : w.session.Pairs s.branches) (purpose : Purpose) :
    Leads inward frames (hold s purpose) w σ := by
  unfold Leads hold
  rcases hf : w.session.fork s purpose with e | ⟨child, session⟩
  · exact .refl h
  · obtain ⟨hco, hchild, hlen, hsame⟩ := h.coherent.fork hs hf
    refine ⟨⟨hco, h.here.mono hlen, fun p hp => (h.outer p hp).mono hlen, fun r hr => ?_, h.met⟩,
      rfl, fun _ hf => hf, fun _ _ => rfl, hlen, fun p hp f _ hn hd => ?_⟩
    · rcases List.mem_append.1 hr with hr | hr
      · exact (h.held r hr).mono hlen
      · obtain rfl := List.mem_singleton.1 hr
        exact hchild
    · exact (hn (defines_of_fork hsame (h.outer p hp) hd)).elim

theorem leads_note (h : Sound frames w σ) (s : Scope) (t : Target) (hin : inward → s = w.scope) :
    Leads inward frames (note frames s t) w σ := by
  unfold Leads note
  rcases hn : t.name?.filter (· ∈ frames.pending s) with _ | name
  · exact .refl h
  · have hsub := List.subset_cons_self name σ.overlaps
    refine ⟨{ h with
      coherent := h.coherent.mono hsub
      met := fun m hm => (h.met m hm).imp_right fun hm _ hf => hsub (hm hf) }, rfl, hsub,
      fun hi hp => ?_, Nat.le_refl _, fun _ _ _ _ hn hd => (hn hd).elim⟩
    have hmem := of_decide_eq_true (Option.filter_eq_some_iff.1 hn).2
    rw [hin hi, hp] at hmem
    cases hmem

theorem note_run (s : Scope) (t : Target) :
    note frames s t w σ = ((.ok (), w), (note frames s t w σ).2) := by
  unfold note
  split <;> rfl

/-- A name that was noted is an overlap. -/
theorem overlaps_note {f : String} (ht : t.name? = some f) (hf : f ∈ frames.pending s) :
    f ∈ (note frames s t w σ).2.overlaps := by
  have hname : t.name?.filter (· ∈ frames.pending s) = some f := by
    rw [ht, Option.filter_eq_some_iff]
    exact ⟨rfl, decide_eq_true hf⟩
  rw [note, hname]
  exact List.mem_cons_self

end Steps

section Lowerings

variable {s child : Scope} {session : Session} {t : Target} {x : ScriptT Value} {c : Workspace}

/-- The output of a computation registers nothing. -/
theorem leads_replayed (hx : Leads inward frames x w σ) :
    Leads inward frames (Lowering.replayed x) w σ := by
  refine hx.bind fun v w' σ' _ hsound => ?_
  have hb := (Operation.scopeStep_grows (.addOutput v) w').branches
  rw [Operation.scopeStep, Operation.outcome_map] at hb
  exact .of_idle hsound rfl rfl hb

/-- Nothing is pending in the registry of a fork of the own scope if nothing was in the scope's. -/
theorem pending_fork (h : Sound frames w σ)
    (hf : w.session.fork w.scope t.purpose = .ok (child, session))
    (hp : frames.pending w.scope = []) : Frames.pending ((w.scope, t) :: frames) child = [] := by
  refine List.eq_nil_iff_forall_not_mem.2 fun f hm => ?_
  obtain ⟨p, hpm, hb, hpf⟩ := Frames.mem_pending.1 hm
  by_cases hn : t.purpose = .named
  · -- the fork has a registry of its own, later than all that are pending
    rw [hn] at hf
    obtain ⟨rfl, rfl⟩ := Session.fork_named hf
    have hlt : p.1.branches.definitions < w.session.definitions.contents.length := by
      rcases List.mem_cons.1 hpm with rfl | hpm
      · exact h.here.2
      · exact (h.outer p hpm).2
    rw [Scope.blank_eq] at hb
    exact absurd hb (Nat.ne_of_lt hlt)
  · obtain ⟨rfl, -, -⟩ := Session.fork_shared hf hn
    rcases List.mem_cons.1 hpm with rfl | hpm
    · cases t with
      | function name k => exact hn rfl
      | lambda k | constraint label => cases hpf
    · rw [Scope.blank_eq] at hb
      have hmem : f ∈ frames.pending w.scope := Frames.mem_pending.2 ⟨p, hpm, hb, hpf⟩
      rw [hp] at hmem
      cases hmem

/-- A lowering whose computation has run, with the session back in the scope that the script works
in. -/
theorem Moves.back (h : Sound frames w σ) (hs : w.session.Pairs s.branches)
    (hin : inward → s = w.scope)
    (hf : w.session.fork s t.purpose = .ok (child, session))
    (hm : Moves inward ((s, t) :: frames) ⟨session, child⟩ σ c σ') :
    Moves inward frames w σ ⟨c.session, w.scope⟩ σ' := by
  obtain ⟨-, -, hlen, hsame⟩ := h.coherent.fork hs hf
  have hle := Nat.le_trans hlen hm.length_le
  refine ⟨⟨hm.sound.coherent, h.here.mono hle,
    fun p hp => hm.sound.outer p (List.mem_cons_of_mem _ hp), hm.sound.held, hm.sound.met⟩,
    rfl, hm.overlaps, fun hi hp => ?_, hle, fun p hp f hpf hn hd => ?_⟩
  · obtain rfl := hin hi
    exact hm.none_new hi (pending_fork h hf hp)
  · exact hm.pending p (List.mem_cons_of_mem _ hp) f hpf
      (fun hdef => hn (defines_of_fork hsame (h.outer p hp) hdef)) hd

/-- What is admitted was not defined before. -/
theorem not_defines_of_start (h : Sound frames w σ) (hs : w.session.Pairs s.branches)
    (ha : t.start ⟨w.session, s⟩ = .ok (child, session)) {f : String} (ht : t.name? = some f) :
    ¬w.session.Defines s.branches f := by
  have hnone := (Target.start_eq_ok ha).2 f ht
  rw [(h.coherent.registered hs).agree, Option.map_eq_none_iff, lastNamed_eq_none] at hnone
  exact hnone

/-- Withdrawing a name leaves the definitions and what is callable by them. -/
theorem registries_withdraw (t : Target) (before w : Workspace) (f : Fault LowerError) :
    (t.withdraw before w f).session.userFunctions = w.session.userFunctions ∧
      (t.withdraw before w f).session.definitions = w.session.definitions := by
  unfold Target.withdraw
  split
  · split_ifs <;> exact ⟨rfl, rfl⟩
  · exact ⟨rfl, rfl⟩

/-- What a lowering enters is a definition of its name at its signature, or no definition. -/
theorem enter_cases {v : ValidTrace} {trace : Trace} {a : t.Result}
    (hv : trace.validate t.context t.expected = .ok v) (ha : t.emit w v = .ok a) :
    ((t.enter w v a).session.userFunctions = w.session.userFunctions ∧
        (t.enter w v a).session.definitions = w.session.definitions) ∨
      ∃ d, t.name? = some d.name ∧ t.enter w v a = w.registerDefinition d.signature d := by
  cases t with
  | lambda k | constraint label => exact .inl ⟨rfl, rfl⟩
  | function name k =>
    have hd : v.declaration name = .ok a := by
      simp only [Target.emit] at ha
      split at ha
      · split_ifs at ha
        exact mapError_eq_ok ha
      · exact mapError_eq_ok ha
    obtain ⟨hname, hsig⟩ := signature_of_declaration hd
    have hkind : v.outputKind = k := by
      obtain ⟨-, -, out, -, rfl⟩ := Trace.validate_ok hv
      rfl
    refine .inr ⟨a, congrArg some hname.symm, ?_⟩
    rw [hsig, hkind]
    rfl

/-- A lowering that concludes registers at most the name that it was to define. -/
theorem moves_conclude {own : Scope} (h : Sound frames ⟨c.session, own⟩ σ)
    (hs : c.session.Pairs s.branches)
    (hdef : ∀ f, t.name? = some f → c.session.Defines s.branches f → f ∈ σ.overlaps)
    (hpending : ∀ f, t.name? = some f → f ∈ frames.pending s → f ∈ σ.overlaps)
    (before : Session) (r : Except (Fault ValueError) NodeId) :
    Moves inward frames ⟨c.session, own⟩ σ ⟨(t.conclude ⟨before, s⟩ r c).2, own⟩ σ := by
  rcases t.conclude_cases ⟨before, s⟩ r c with ⟨f, he⟩ | ⟨v, a, hemit, hv, he⟩ <;> rw [he]
  · obtain ⟨hfuns, hdefs⟩ := registries_withdraw t ⟨before, s⟩ ⟨c.session, s⟩ f
    exact .of_idle h hfuns hdefs rfl
  · rcases enter_cases hv hemit with ⟨hfuns, hdefs⟩ | ⟨d, hname, hd⟩
    · exact .of_idle h hfuns hdefs rfl
    · simp only [hd]
      have hlen {b : BranchIds} (hb : c.session.Pairs b) :
          (Workspace.registerDefinition ⟨c.session, s⟩ d.signature d).session.Pairs b :=
        hb.mono (Nat.le_of_eq (Branches.length_update _ _ _).symm)
      refine ⟨⟨h.coherent.register hs (hdef _ hname), hlen h.here, fun p hp => hlen (h.outer p hp),
        fun r hr => hlen (h.held r hr), h.met⟩, rfl, fun _ hf => hf, fun _ _ => rfl,
        Nat.le_of_eq (Branches.length_update _ _ _).symm, fun p hp f hpf hn hd => ?_⟩
      obtain ⟨hb, rfl⟩ := (Session.defines_register hs.2 hd).resolve_left hn
      exact hpending _ hname (Frames.mem_pending.2 ⟨p, hp, hb, hpf⟩)

/-- A lowering of a script that leads on, at a place whose name was noted. -/
theorem leads_nested (h : Sound frames w σ) (hs : w.session.Pairs s.branches)
    (hin : inward → s = w.scope)
    (hnoted : ∀ f, t.name? = some f → f ∈ frames.pending s → f ∈ σ.overlaps)
    (hx : ∀ w σ, Sound ((s, t) :: frames) w σ → Leads inward ((s, t) :: frames) x w σ) :
    Leads inward frames (Lowering.nested fun _ => t.lower s x) w σ := by
  unfold Leads
  rcases ha : t.start ⟨w.session, s⟩ with e | ⟨child, session⟩
  · rw [nested_refused ha]
    exact .refl h
  · have hf := (Target.start_eq_ok ha).1
    obtain ⟨hco, hchild, hlen, hsame⟩ := h.coherent.fork hs hf
    have hstart : Sound ((s, t) :: frames) ⟨session, child⟩ σ := by
      refine ⟨hco, hchild, fun p hp => ?_, fun r hr => (h.held r hr).mono hlen, h.met⟩
      rcases List.mem_cons.1 hp with rfl | hp
      · exact hs.mono hlen
      · exact (h.outer p hp).mono hlen
    have hbody := leads_replayed (hx ⟨session, child⟩ σ hstart)
    rcases hrun : Lowering.replayed x ⟨session, child⟩ σ with ⟨⟨r, c⟩, σ'⟩
    obtain ⟨r', hr'⟩ := nested_run ha hrun
    rw [Leads, hrun] at hbody
    rw [hr']
    have hback := Moves.back h hs hin hf hbody
    refine hback.trans (moves_conclude hback.sound (hs.mono hback.length_le) (fun f hf hdef => ?_)
      (fun f hf hp => hbody.overlaps (hnoted f hf hp)) w.session r)
    exact hbody.pending (s, t) List.mem_cons_self f hf
      (fun hdef => not_defines_of_start h hs ha hf (defines_of_fork hsame hs hdef)) hdef

end Lowerings

/-- A script leads on from wherever it begins. -/
theorem run_leads (c : Script) (hc : c.Unregistered) (hi : inward → c.Inward)
    (h : Sound frames w σ) : Leads inward frames (c.run frames) w σ := by
  induction c generalizing frames w σ with
  | result v => exact .refl h
  | abort e => exact .refl h
  | operate o next ih =>
    exact (leads_operate h hc.1).bind fun r _ _ _ h' => ih r (hc.2 r) (fun i => hi i r) h'
  | visit k o next ih =>
    exact (leads_visitStep h hc.1 k).bind fun r _ _ _ h' => ih r (hc.2 r) (fun i => hi i r) h'
  | inspect p next ih =>
    exact leads_place h p fun s hs _ =>
      (leads_look h hs).bind fun w _ _ _ h' => ih w (hc w) (fun i => hi i w) h'
  | fork p purpose next ih =>
    exact leads_place h p fun s hs _ =>
      (leads_hold h hs purpose).bind fun r _ _ _ h' => ih r (hc r) (fun i => hi i r) h'
  | lower p t body next ihb ih =>
    refine leads_place h p fun s hs hp => ?_
    have hin : inward → s = w.scope := fun i => hp (hi i).1
    refine (leads_note h s t hin).bind fun _ w' σ' hrun h' => ?_
    rw [note_run] at hrun
    cases hrun
    exact (leads_nested h' hs hin (fun f => overlaps_note) fun _ _ hw =>
      ihb hc.1 (fun i => (hi i).2.1) hw).bind fun r _ _ _ h' =>
        ih r (hc.2 r) (fun i => (hi i).2.2 r) h'

theorem sound_new (config : Config) : Sound [] (.new config) .empty := by
  have hfuns (i : Nat) : (Workspace.new config).session.userFunctions.get i = ⟨[]⟩ := by
    cases i <;> rfl
  have hdefs (i : Nat) : (Workspace.new config).session.definitions.get i = [] := by
    cases i <;> rfl
  exact {
    coherent := {
      lengths := rfl
      agree := fun i f => by rw [hfuns, hdefs]; rfl
      once := fun i f _ => by rw [hdefs]; exact Nat.zero_le 1 }
    here := ⟨rfl, Nat.zero_lt_one⟩
    outer := fun _ hp => by cases hp
    held := fun _ hs => by cases hs
    met := fun _ hm => by cases hm }

/-- Of whatever a script looks at: a name is defined at most once if it is no overlap, and any name
is if the script lowers inward only; the names that are callable are those that are defined, each at
the signature of its last definition, so a name that is no overlap at the signature of its only
one. -/
theorem met_registered (c : Script) (config : Config) (hc : c.Unregistered) :
    ∀ m ∈ (c.session config).met,
      (∀ f ∉ m.2, (m.1.definitions.map (·.name)).count f ≤ 1) ∧
      (c.Inward → (m.1.definitions.map (·.name)).Nodup) ∧
      (∀ f, (m.1.userFunctions.find? f).isSome ↔ f ∈ m.1.definitions.map (·.name)) ∧
      (∀ f, m.1.userFunctions.find? f =
        (lastNamed m.1.definitions f).map Declaration.signature) ∧
      ∀ d ∈ m.1.definitions, d.name ∉ m.2 →
        m.1.userFunctions.find? d.name = some d.signature := by
  intro m hm
  have hrun : Leads c.Inward [] (c.run []) (.new config) .empty :=
    run_leads c hc id (sound_new config)
  obtain ⟨hreg, hsub⟩ := hrun.sound.met m hm
  refine ⟨hreg.once, fun hi => ?_, fun f => ?_, hreg.agree, fun d hd hf => ?_⟩
  · have hnone : m.2 = [] := by
      rw [hrun.none_new hi rfl] at hsub
      exact List.eq_nil_of_subset_nil hsub
    refine List.nodup_iff_count_le_one.2 fun f => hreg.once f ?_
    rw [hnone]
    exact List.not_mem_nil
  · rw [hreg.agree, Option.isSome_map, Option.isSome_iff_ne_none, ne_eq, lastNamed_eq_none, not_not]
  · rw [hreg.agree]
    rcases hl : lastNamed m.1.definitions d.name with _ | d'
    · exact absurd (List.mem_map_of_mem hd) (lastNamed_eq_none.1 hl)
    · obtain ⟨hd', hname⟩ := mem_of_lastNamed hl
      rw [eq_of_count_le_one hd hd' hname.symm (hreg.once _ hf)]
      rfl

/-- Defines one function, and another one in a fork that is held. -/
def defineInFork : Script :=
  .lower .here (.function "f" .int) (.result (.concrete (.int 1))) fun _ =>
  .fork .here .named fun _ =>
  .lower (.held 0) (.function "g" .bool) (.result (.concrete (.bool true))) fun _ =>
  .inspect (.held 0) fun _ =>
  .result (.concrete (.int 1))

theorem met_registered_defineInFork :
    ∃ m ∈ (defineInFork.session {}).met, m.1.definitions.map (·.name) = ["f", "g"] ∧
      m.1.userFunctions.find? "g" = some ⟨[], .bool⟩ := by
  have hc : defineInFork.Unregistered := ⟨trivial, fun _ _ => ⟨trivial, fun _ _ => trivial⟩⟩
  obtain ⟨m, hm, hnone, hnames, d, hd, hname, hsig⟩ :
      ∃ m ∈ (defineInFork.session {}).met, m.2 = [] ∧ m.1.definitions.map (·.name) = ["f", "g"] ∧
        ∃ d ∈ m.1.definitions, d.name = "g" ∧ d.signature = ⟨[], .bool⟩ := by decide +kernel
  obtain ⟨-, -, -, -, hown⟩ := met_registered defineInFork {} hc m hm
  have hfind := hown d hd (hnone ▸ List.not_mem_nil)
  rw [hname, hsig] at hfind
  exact ⟨m, hm, hnames, hfind⟩

/-- Defines a function, and while that is under way another one of the same name in a fork of the
same registry. -/
def defineMeanwhile : Script :=
  .fork .here .lambda fun _ =>
  .lower .here (.function "f" .int)
    (.lower (.held 0) (.function "f" .bool) (.result (.concrete (.bool true))) fun _ =>
      .result (.concrete (.int 1))) fun _ =>
  .inspect .here fun _ =>
  .result (.concrete (.int 1))

/-- A name can be defined twice, and then the signature of the first definition is lost. -/
theorem met_defined_twice : defineMeanwhile.Unregistered ∧
    ∃ m ∈ (defineMeanwhile.session {}).met,
      m.1.definitions.map (fun d => (d.name, d.signature)) =
        [("f", ⟨[], .bool⟩), ("f", ⟨[], .int⟩)] ∧
      m.1.userFunctions.find? "f" = some ⟨[], .int⟩ :=
  ⟨fun _ => ⟨⟨trivial, fun _ => trivial⟩, fun _ _ => trivial⟩, by decide +kernel⟩

end Script

end SmtLowering
