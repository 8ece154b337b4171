import SmtLowering.Proofs.Declarations
import SmtLowering.Proofs.Offsets

/-!
# Lowerings do not depend on the parent's own scope

A computation that captures nothing goes on in the same way whatever the numbers are in what it got
(`Computation.Blind`). In workspaces that match, it then runs as in the other, nested lowerings
included (`Computation.Shifted.tracks`). A parent matches a session that has numbered nothing yet,
with the same registries, and there every parent is the same. So how the computation is lowered is
decided by the registries, the level and the configuration; the parent's nodes and what it recorded
play no part (`Target.lower_independent`).
-/

namespace SmtLowering

section Tracks

variable {δ : Offset} {α β : Type} {x x' : Work α}

/-- In workspaces that match, `x'` ends as `x` does with its numbers ahead, and they match again. -/
def Offset.Tracks (δ : Offset) (g : α → α) (x x' : Work α) : Prop :=
  ∀ w w', δ.Matches w w' →
    (outcome x' w').1 = δ.names.result g (outcome x w).1 ∧
      δ.Matches (outcome x w).2 (outcome x' w').2

namespace Offset

theorem Tracks.bind {g : α → α} {h : β → β} {k k' : α → Work β} (hx : δ.Tracks g x x')
    (hk : ∀ a, δ.Tracks h (k a) (k' (g a))) : δ.Tracks h (x >>= k) (x' >>= k') := by
  intro w w' hw
  obtain ⟨hr, hm⟩ := hx w w' hw
  rw [outcome_bind, outcome_bind]
  rcases hxw : outcome x w with ⟨f | a, u⟩ <;> rcases hxw' : outcome x' w' with ⟨r, u'⟩ <;>
    rw [hxw, hxw'] at hr hm <;> cases hr
  · exact ⟨rfl, hm⟩
  · exact hk a u u' hm

theorem tracks_attempt {g : α → α} (hx : δ.Tracks g x x') :
    δ.Tracks (Except.mapBoth δ.error g) (Work.attempt x) (Work.attempt x') := by
  intro w w' hw
  obtain ⟨hr, hm⟩ := hx w w' hw
  rw [Work.outcome_attempt, Work.outcome_attempt]
  rcases hxw : outcome x w with ⟨(e | v) | a, u⟩ <;> rcases hxw' : outcome x' w' with ⟨r, u'⟩ <;>
    rw [hxw, hxw'] at hr hm <;> cases hr <;> exact ⟨rfl, hm⟩

/-- The result becomes an output under the node that it has in both. -/
theorem tracks_replayed {x x' : Work Value} (hx : δ.Tracks δ.value x x') :
    δ.Tracks id (Lowering.replayed x) (Lowering.replayed x') := by
  refine hx.bind fun v w w' hw => ?_
  have hm := (translation_lawful w'.scope.branches).mirrors_addOutput hw.admits v
  rw [outcome_build, outcome_build]
  exact hw.step hm hw.toAhead

end Offset

end Tracks

section Lowerings

open SmtLowering.Computation

variable {δ : Offset} {w w' : Workspace}

theorem Offset.Matches.sameLevel (h : δ.Matches w w') : w.SameLevel w' := by
  constructor <;> rw [h.scope] <;> rfl

/-- What is refused here is refused there, with an error that names no number; what is admitted
runs in forks that match. -/
theorem Offset.Ahead.start (h : δ.Ahead w w') (hl : w.SameLevel w') (t : Target) :
    (∃ e, t.start w = .error e ∧ t.start w' = .error e ∧ δ.lowerError e = e) ∨
      ∃ child s child' s', t.start w = .ok (child, s) ∧ t.start w' = .ok (child', s') ∧
        δ.Matches ⟨s, child⟩ ⟨s', child'⟩ := by
  unfold Target.start
  rw [h.userFunctions]
  rcases t.name?.bind fun name => (w.userFunctions.find? name).map (name, ·) with _ | ⟨name, sig⟩
  · simp only
    rcases hf : w.session.fork w.scope t.purpose with e | ⟨child, s⟩
    · obtain ⟨hf', he⟩ := Offset.fork_error δ hl hf
      exact .inl ⟨e, rfl, hf', he⟩
    · rcases hf' : w'.session.fork w'.scope t.purpose with e | ⟨child', s'⟩
      · rw [(Offset.fork_error δ hl.symm hf').1] at hf
        cases hf
      · exact .inr ⟨child, s, child', s', rfl, rfl, h.fork hl hf hf'⟩
  · exact .inl ⟨_, rfl, rfl, rfl⟩

/-- A lowering ends in the same way, but for the numbers, if its computation does. -/
theorem Offset.Ahead.lower (h : δ.Ahead w w') (hl : w.SameLevel w') {c c' : Computation}
    (hc : δ.Tracks δ.value c.run c'.run) (t : Target) :
    ((t.lower w'.scope c'.run).run.run w'.session).1 =
        δ.ending ((t.lower w.scope c.run).run.run w.session).1 ∧
      δ.Ahead ⟨((t.lower w.scope c.run).run.run w.session).2, w.scope⟩
        ⟨((t.lower w'.scope c'.run).run.run w'.session).2, w'.scope⟩ := by
  rw [t.outcome_lower, t.outcome_lower]
  rcases h.start hl t with ⟨e, he, he', hsame⟩ | ⟨child, s, child', s', hs, hs', hm⟩
  · rw [he, he']
    refine ⟨?_, h⟩
    simp only [Offset.ending, Except.mapBoth, Fault.map, hsame]
  · rw [hs, hs']
    obtain ⟨hr, hmatch⟩ := Offset.tracks_replayed hc _ _ hm
    have hwrites := relates_writes.replayed (relates_writes.run c c.uses_true ⟨s, child⟩)
    have hwrites' := relates_writes.replayed (relates_writes.run c' c'.uses_true ⟨s', child'⟩)
    have hback := h.back (Target.start_eq_ok hs).1 (Target.start_eq_ok hs').1 hwrites hwrites'
      hmatch.toAhead
    have hend := h.conclude hmatch hback t (outcome (Lowering.replayed c.run) ⟨s, child⟩).1
    rw [← hr] at hend
    exact hend

theorem Offset.tracks_nested {c c' : Computation} (hc : δ.Tracks δ.value c.run c'.run)
    (t : Target) :
    δ.Tracks (Except.mapError δ.lowerError) (Lowering.nested fun s => t.lower s c.run)
      (Lowering.nested fun s => t.lower s c'.run) := by
  intro w w' hw
  obtain ⟨hr, hahead⟩ := hw.lower hw.sameLevel hc t
  rw [Lowering.outcome_nested, Lowering.outcome_nested]
  rcases hlower : (t.lower w.scope c.run).run.run w.session with ⟨(e | v) | a, s⟩ <;>
    rcases hlower' : (t.lower w'.scope c'.run).run.run w'.session with ⟨r, s'⟩ <;>
    rw [hlower, hlower'] at hr hahead <;> cases hr <;>
    exact ⟨rfl, { hahead with scope := hw.scope, admits := hw.admits }⟩

end Lowerings

namespace Computation

/-- The second computation is the first one with all numbers ahead: those that it uses, and those in
what it goes on with. -/
inductive Shifted (δ : Offset) : Computation → Computation → Prop
  | result (v : Value) : Shifted δ (.result v) (.result (δ.value v))
  | abort (e : ValueError) : Shifted δ (.abort e) (.abort (δ.error e))
  | operate (o : Operation) {next next' : Except ValueError (Option Value) → Computation} :
    (∀ r, Shifted δ (next r) (next' (Except.mapBoth δ.error (Option.map δ.value) r))) →
    Shifted δ (.operate o next) (.operate (o.map δ.value) next')
  | inspect {next next' : Workspace → Computation} :
    (∀ w w', δ.Matches w w' → Shifted δ (next w) (next' w')) →
    Shifted δ (.inspect next) (.inspect next')
  | lower (t : Target) {body body' : Computation}
    {next next' : Except LowerError t.Result → Computation} :
    Shifted δ body body' → (∀ r, Shifted δ (next r) (next' (r.mapError δ.lowerError))) →
    Shifted δ (lower t body next) (lower t body' next')

section Issued

variable {δ : Offset}

/-- Goes on with the value that an operation issues. -/
def take (o : Operation) (next : Value → Computation) : Computation :=
  .operate o fun
    | .ok (some v) => next v
    | .ok none => .abort (.user "no value")
    | .error e => .abort e

theorem Shifted.take (o : Operation) {next next' : Value → Computation}
    (h : ∀ v, Shifted δ (next v) (next' (δ.value v))) :
    Shifted δ (take o next) (take (o.map δ.value) next') := by
  refine .operate o fun r => ?_
  rcases r with e | _ | v
  · exact .abort e
  · exact .abort (.user "no value")
  · exact h v

end Issued

/-- The computation has no numbers of its own: it captures no value and no scope, and goes on in the
same way whatever the numbers are in what it got. One that reads a number, say in the text of an
error, can tell parents apart and is not blind. -/
def Blind (c : Computation) : Prop := ∀ δ, Shifted δ c c

/-- A computation with all numbers ahead runs as the other one, but for the numbers. -/
theorem Shifted.tracks {δ : Offset} {c c' : Computation} (h : Shifted δ c c') :
    δ.Tracks δ.value c.run c'.run := by
  induction h with
  | result v => exact fun w w' hw => ⟨rfl, hw⟩
  | abort e => exact fun w w' hw => ⟨rfl, hw⟩
  | operate o hnext ih =>
    exact (Offset.tracks_attempt fun w w' hw => hw.operate o).bind ih
  | inspect hnext ih => exact fun w w' hw => ih w w' hw w w' hw
  | lower t hbody hnext ihb ih =>
    rw [run_lower, run_lower]
    exact (Offset.tracks_nested ihb t).bind ih

end Computation

section Counters

namespace Workspace

/-- The scope uses its branches of the counters as before, and the session has as many. -/
structure KeepsCounters (w w' : Workspace) : Prop where
  branches : w'.scope.branches = w.scope.branches
  tableIds : w'.session.tableIds.contents.length = w.session.tableIds.contents.length
  arrayIds : w'.session.arrayIds.contents.length = w.session.arrayIds.contents.length

theorem KeepsCounters.refl (w : Workspace) : w.KeepsCounters w := ⟨rfl, rfl, rfl⟩

theorem KeepsCounters.trans {w w' w'' : Workspace} (h : w.KeepsCounters w')
    (h' : w'.KeepsCounters w'') : w.KeepsCounters w'' :=
  ⟨h'.branches.trans h.branches, h'.tableIds.trans h.tableIds, h'.arrayIds.trans h.arrayIds⟩

/-- A scope has its branches of the counters as the one that it has them from. -/
theorem KeepsCounters.rooted {w w' : Workspace} (h : w.KeepsCounters w') {s t : Scope}
    (hs : Rooted ⟨w.session, s⟩) (ht : InRange ⟨w'.session, t⟩)
    (htables : t.branches.tableIds = s.branches.tableIds)
    (harrays : t.branches.arrayIds = s.branches.arrayIds) : Rooted ⟨w'.session, t⟩ :=
  { ht with
    tableIds := htables ▸ Nat.lt_of_lt_of_eq hs.tableIds h.tableIds.symm
    arrayIds := harrays ▸ Nat.lt_of_lt_of_eq hs.arrayIds h.arrayIds.symm }

end Workspace

theorem Operation.run_keepsCounters (o : Operation) (w : Workspace) :
    w.KeepsCounters (outcome o.run w).2 := by
  rw [outcome_run]
  have hb := (o.scopeStep_grows w).branches
  cases o with
  | apply name result args =>
    simp only [sessionAfter]
    rcases w.signature? name with _ | sig <;> exact ⟨hb, rfl, rfl⟩
  | lookup entries index fallback =>
    simp only [sessionAfter]
    split_ifs
    · exact ⟨hb, Branches.length_update _ _ _, rfl⟩
    · exact ⟨hb, rfl, rfl⟩
  | newArray name key value => exact ⟨hb, rfl, Branches.length_update _ _ _⟩
  | _ => exact ⟨hb, rfl, rfl⟩

theorem Session.fork_counters {w : Workspace} {purpose : Purpose} {child : Scope} {s : Session}
    (hf : w.session.fork w.scope purpose = .ok (child, s)) :
    s.tableIds = w.session.tableIds ∧ s.arrayIds = w.session.arrayIds := by
  by_cases hp : purpose = .named
  · subst hp
    obtain ⟨-, rfl⟩ := Session.fork_named hf
    exact ⟨rfl, rfl⟩
  · obtain ⟨-, rfl, -⟩ := Session.fork_shared hf hp
    exact ⟨rfl, rfl⟩

theorem Target.conclude_counters (t : Target) (w : Workspace)
    (r : Except (Fault ValueError) NodeId) (c : Workspace) :
    (t.conclude w r c).2.tableIds = c.session.tableIds ∧
      (t.conclude w r c).2.arrayIds = c.session.arrayIds := by
  rcases t.conclude_cases w r c with ⟨f, h⟩ | ⟨v, a, -, -, h⟩ <;> rw [h]
  · rcases t with _ | _ | _ <;> rcases f with _ | _ <;> try exact ⟨rfl, rfl⟩
    simp only [withdraw]
    split_ifs <;> exact ⟨rfl, rfl⟩
  · cases t <;> exact ⟨rfl, rfl⟩

theorem Computation.relates_keepsCounters :
    Relates (fun _ => True) Workspace.KeepsCounters where
  output _ := trivial
  refl := .refl
  trans _ _ _ := Workspace.KeepsCounters.trans
  operate o w _ := o.run_keepsCounters w
  conclude t w child s c r hs h := by
    obtain ⟨htables, harrays⟩ := Session.fork_counters (Target.start_eq_ok hs).1
    obtain ⟨htables', harrays'⟩ := t.conclude_counters w r c
    refine ⟨rfl, ?_, ?_⟩
    · rw [htables', h.tableIds, htables]
    · rw [harrays', h.arrayIds, harrays]

end Counters

namespace World

variable {w : World}

/-- The session has the branches of every scope. -/
def Rooted (w : World) : Prop := ∀ s ∈ w.scopes, (w.workspace s).Rooted

theorem start_rooted (config : Config) : (empty.next (.start config)).Rooted := by
  intro s hs
  have hrange := start_inRange config s hs
  obtain rfl := List.mem_singleton.1 hs
  exact { hrange with tableIds := Nat.one_pos, arrayIds := Nat.one_pos }

theorem act_rooted (hw : w.Rooted) (a : Act) : (w.act a).Rooted := by
  intro r hr
  have hrange := act_inRange (fun s hs => (hw s hs).toInRange) a r hr
  cases a with
  | operate i o =>
    rcases hs : w.scopes[i]? with _ | s
    · rw [World.act, next_call_none w o hs] at hr ⊢
      exact hw r hr
    · have hkeeps := o.run_keepsCounters ⟨w.session, s⟩
      rw [Operation.outcome_run] at hkeeps
      rw [World.act, next_call w o hs] at hr hrange ⊢
      rcases List.mem_or_eq_of_mem_set hr with hr | rfl
      · exact hkeeps.rooted (hw r hr) hrange rfl rfl
      · exact hkeeps.rooted (hw s (List.mem_of_getElem? hs)) hrange
          (congrArg BranchIds.tableIds hkeeps.branches)
          (congrArg BranchIds.arrayIds hkeeps.branches)
  | fork i p =>
    simp only [World.act, next] at hr hrange ⊢
    rcases hs : w.scopes[i]? with _ | s <;> rw [hs] at hr hrange
    · exact hw r hr
    · simp only at hr hrange ⊢
      rcases hf : w.session.fork s p with e | ⟨child, session⟩ <;> rw [hf] at hr hrange
      · exact hw r hr
      · have hb := Session.fork_branches (w := ⟨w.session, s⟩) hf
        obtain ⟨htables, harrays⟩ := Session.fork_counters (w := ⟨w.session, s⟩) hf
        have hkeeps : Workspace.KeepsCounters ⟨w.session, s⟩ ⟨session, s⟩ :=
          ⟨rfl, by rw [htables], by rw [harrays]⟩
        rcases List.mem_append.1 hr with hr | hr
        · exact hkeeps.rooted (hw r hr) hrange rfl rfl
        · obtain rfl := List.mem_singleton.1 hr
          exact hkeeps.rooted (hw s (List.mem_of_getElem? hs)) hrange
            ((congrArg BranchIds.tableIds hb).trans rfl)
            ((congrArg BranchIds.arrayIds hb).trans rfl)
  | lower i t body =>
    simp only [World.act] at hr hrange ⊢
    rcases hs : w.scopes[i]? with _ | s <;> rw [hs] at hr hrange
    · exact hw r hr
    · have hkeeps := Computation.relates_keepsCounters.lower
        (fun w => Computation.relates_keepsCounters.run body body.uses_true w) t ⟨w.session, s⟩
      exact hkeeps.rooted (hw r hr) hrange rfl rfl

/-- Whatever is done in a session, it has the branches of its scopes. -/
theorem acts_rooted (hw : w.Rooted) (as : List Act) : (w.acts as).Rooted := by
  induction as generalizing w with
  | nil => exact hw
  | cons a as ih => exact ih (act_rooted hw a)

end World

section Independence

namespace Workspace

/-- A session that has numbered nothing yet, with a scope of the same level that has the same
registries and has recorded nothing. -/
def renewed (w : Workspace) : Workspace where
  session := ⟨0, ⟨[w.uninterpreted]⟩, ⟨[w.userFunctions]⟩, ⟨[w.definitions]⟩, ⟨[w.axioms]⟩, ⟨[0]⟩,
    ⟨[0]⟩⟩
  scope := .blank 0 w.scope.level w.scope.config ⟨0, 0, 0, 0, 0, 0⟩

theorem Rooted.renewed_ahead {w : Workspace} (hw : w.Rooted) : w.offset.Ahead w.renewed w where
  userFunctions := rfl
  definitions := rfl
  uninterpreted := rfl
  axioms := rfl
  rooted := ⟨⟨Nat.one_pos, Nat.one_pos, Nat.one_pos, Nat.one_pos⟩, Nat.one_pos, Nat.one_pos⟩
  rooted' := hw
  scopes := (Nat.zero_add _).symm
  tableId := (Nat.zero_add _).symm
  arrayId := (Nat.zero_add _).symm

theorem renewed_sameLevel (w : Workspace) : w.renewed.SameLevel w := ⟨rfl, rfl⟩

theorem SameRegistries.renewed_eq {w w' : Workspace} (h : w.SameRegistries w')
    (hl : w.SameLevel w') : w'.renewed = w.renewed := by
  unfold renewed
  rw [h.uninterpreted, h.userFunctions, h.definitions, h.axioms, hl.level, hl.config]

end Workspace

instance : Add Offset where
  add δ ε := ⟨δ.scopes + ε.scopes, δ.tables + ε.tables, δ.arrays + ε.arrays⟩

/-- How far the run that is ahead has numbered. -/
theorem Offset.Ahead.offset {δ : Offset} {w w' : Workspace} (h : δ.Ahead w w') :
    w'.offset = δ + w.offset := by
  have hscopes := h.scopes
  have htable := h.tableId
  have harray := h.arrayId
  simp only [Workspace.offset, hscopes, htable, harray, Nat.add_comm]
  rfl

namespace Target

/-- How the lowering of a computation ends, and the parent's scope in the session that it leaves. -/
def lowered (t : Target) (c : Computation) (w : Workspace) :
    Except (Fault LowerError) t.Result × Workspace :=
  let (r, s) := (t.lower w.scope c.run).run.run w.session
  (r, ⟨s, w.scope⟩)

/-- A lowering does not depend on what the parent's scope holds. In two parents of the same level
and configuration that read the same functions, definitions and axioms, a computation that captures
nothing ends with the same result or with the same error, with numbers that are ahead as the
parent's are, and it leaves the same registries and as many new numbers. The sessions have to have
the branches of the parents, as sessions do (`World.acts_rooted`). -/
theorem lower_independent (t : Target) {c : Computation} (hc : c.Blind) {w w' : Workspace}
    (hw : w.Rooted) (hw' : w'.Rooted) (hl : w.SameLevel w') (hr : w.SameRegistries w') :
    ∃ (r : Except (Fault LowerError) t.Result) (d : Offset),
      ((t.lowered c w).1 = w.offset.ending r ∧ (t.lowered c w').1 = w'.offset.ending r) ∧
      (t.lowered c w).2.SameRegistries (t.lowered c w').2 ∧
      (t.lowered c w).2.offset = w.offset + d ∧ (t.lowered c w').2.offset = w'.offset + d := by
  obtain ⟨he, ha⟩ := hw.renewed_ahead.lower w.renewed_sameLevel (hc w.offset).tracks t
  obtain ⟨he', ha'⟩ := hw'.renewed_ahead.lower w'.renewed_sameLevel (hc w'.offset).tracks t
  rw [hr.renewed_eq hl] at he' ha'
  refine ⟨(t.lowered c w.renewed).1, (t.lowered c w.renewed).2.offset, ⟨he, he'⟩, ?_, ha.offset,
    ha'.offset⟩
  exact ⟨⟨ha'.userFunctions.trans ha.userFunctions.symm,
    ha'.definitions.trans ha.definitions.symm⟩, ha'.uninterpreted.trans ha.uninterpreted.symm,
    ha'.axioms.trans ha.axioms.symm⟩

open SmtLowering.Computation

/-- Defines a function of an input of its own and applies it to an input. -/
def doublesInput : Computation :=
  take (.input .universal "x" .int) fun x =>
    .function "double" .int
      (take (.input .universal "y" .int) fun y => take (.primitive (.add y y)) .result) fun
        | .ok d => take (.apply d.name .int [x]) .result
        | .error _ => .abort (.user "no double")

theorem doublesInput_blind : doublesInput.Blind := by
  intro δ
  refine .take _ fun x => .lower (.function "double" .int) ?_ fun r => ?_
  · exact .take _ fun y => .take (.primitive (.add y y)) .result
  · rcases r with e | d
    · exact .abort (.user "no double")
    · exact .take (.apply d.name .int [x]) .result

/-- A session whose outermost scope has an input, a table, an array and an observable, and has been
forked for a lambda and for a lowering. -/
def busyParent : World :=
  World.opened.acts
    [.operate 0 (.input .universal "i" .int),
      .operate 0 (.lookup [.concrete (.int 7)] (.symbolic 2 .int 0) (.concrete (.int 0))),
      .operate 0 (.newArray "a" .int .bool), .operate 0 (.observe "i" (.symbolic 2 .int 0)),
      .fork 0 .lambda, .lower 0 (.lambda .int) one]

/-- The outermost scope of that session. -/
def busyScope : Scope := busyParent.scopes.headD default

theorem busyScope_mem : busyScope ∈ busyParent.scopes := by
  have hlen : busyParent.scopes.length = 2 := by decide +kernel
  unfold busyScope
  rcases hs : busyParent.scopes with _ | ⟨s, ss⟩
  · rw [hs] at hlen
    cases hlen
  · exact List.mem_cons_self

theorem lower_independent_busyParent :
    ((lambda .int).lowered doublesInput (Workspace.new {})).1.isOk ∧
      ((lambda .int).lowered doublesInput (busyParent.workspace busyScope)).1 =
        ((lambda .int).lowered doublesInput (Workspace.new {})).1 := by
  have hok : ((lambda .int).lowered doublesInput (Workspace.new {})).1.isOk := by decide +kernel
  have hw : (Workspace.new {}).Rooted := World.start_rooted {} _ (List.mem_singleton.2 rfl)
  have hw' : (busyParent.workspace busyScope).Rooted :=
    World.acts_rooted (World.start_rooted {}) _ _ busyScope_mem
  have hl : (Workspace.new {}).SameLevel (busyParent.workspace busyScope) :=
    ⟨by decide +kernel, by decide +kernel⟩
  have hr : (Workspace.new {}).SameRegistries (busyParent.workspace busyScope) :=
    ⟨⟨by decide +kernel, by decide +kernel⟩, by decide +kernel, by decide +kernel⟩
  obtain ⟨r, d, ⟨h, h'⟩, -⟩ := lower_independent (lambda .int) doublesInput_blind hw hw' hl hr
  refine ⟨hok, ?_⟩
  cases r with
  | error f =>
    rw [h] at hok
    cases hok
  | ok a =>
    rw [h, h']
    rfl

end Target

end Independence

end SmtLowering
