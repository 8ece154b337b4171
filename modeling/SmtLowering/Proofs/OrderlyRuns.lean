import SmtLowering.Proofs.KnownNames

/-!
# Lowerings keep order

A fork finds its parent's registries and has applied nothing yet, so it is orderly as its parent is
(`Workspace.Orderly.forked`). Back in the parent, a lambda or a constraint has left the registries
that the two share (`back_shared`). Of a named function's child only the uninterpreted functions
come back (`back_named`), and a definition is registered at the end. So every lowering keeps order,
whether or not it fails, and by induction every computation (`Computation.run_orderly`).
-/

namespace SmtLowering

section Forks

variable {L N : String → Prop} {w c : Workspace} {s s' : Session} {parent child : Scope}
  {purpose : Purpose}

theorem Session.fork_shared (h : s.fork parent purpose = .ok (child, s'))
    (hp : purpose ≠ .named) :
    child = .blank s.scopes (parent.level + 1) parent.config parent.branches ∧
      s' = { s with scopes := s.scopes + 1 } ∧ (purpose = .constraint → parent.level = 0) := by
  unfold Session.fork at h
  split_ifs at h with hl
  obtain ⟨rfl, rfl⟩ := Prod.mk.inj (Except.ok.inj h)
  cases purpose with
  | named => exact (hp rfl).elim
  | lambda => exact ⟨rfl, rfl, fun hc => by cases hc⟩
  | constraint => exact ⟨rfl, rfl, fun _ => by simpa using hl⟩

theorem Session.fork_named (h : s.fork parent .named = .ok (child, s')) :
    child = .blank s.scopes (parent.level + 1) parent.config
      { parent.branches with
        userFunctions := s.userFunctions.contents.length
        definitions := s.definitions.contents.length } ∧
    s' = { s with
      scopes := s.scopes + 1
      userFunctions := (s.userFunctions.add (s.userFunctions.get parent.branches.userFunctions)).2
      definitions := (s.definitions.add (s.definitions.get parent.branches.definitions)).2 } := by
  obtain ⟨rfl, rfl⟩ := Prod.mk.inj (Except.ok.inj h)
  exact ⟨rfl, rfl⟩

theorem Scope.appliesOnly_blank (K : String → Prop) (number level : Nat) (config : Config)
    (branches : BranchIds) : (Scope.blank number level config branches).AppliesOnly K := by
  rw [Scope.blank_eq]
  intro p hp
  cases hp

namespace Workspace

/-- The scope at hand, in the session that something else left. -/
def resume (w : Workspace) (s : Session) : Workspace := ⟨s, w.scope⟩

/-- The child of a fork, one level below, finds what its parent has and has applied nothing. -/
structure Forked (w c : Workspace) : Prop where
  level : c.scope.level = w.scope.level + 1
  applied (K : String → Prop) : c.scope.AppliesOnly K
  inRange : c.InRange
  uninterpreted : c.uninterpreted = w.uninterpreted
  userFunctions : c.userFunctions = w.userFunctions
  definitions : c.definitions = w.definitions
  axioms : c.axioms = w.axioms

theorem Orderly.forked (h : w.Orderly L) (hf : w.Forked c) : c.Orderly L where
  inRange := hf.inRange
  applied := hf.applied _
  callable f := by
    unfold Defines
    rw [hf.userFunctions, hf.definitions]
    exact h.callable f
  nodup := hf.definitions ▸ h.nodup
  definitions := by
    unfold IsUninterpreted
    rw [hf.definitions, hf.uninterpreted]
    exact h.definitions
  axioms hl := by
    rw [hf.level] at hl
    cases hl

theorem Orderly.forked_shared (h : w.Orderly L)
    (hf : w.session.fork w.scope purpose = .ok (c.scope, c.session)) (hp : purpose ≠ .named) :
    w.Forked c := by
  obtain ⟨session, scope⟩ := c
  obtain ⟨rfl, rfl, -⟩ := Session.fork_shared hf hp
  exact ⟨rfl, fun K => Scope.appliesOnly_blank K _ _ _ _, ⟨h.inRange.uninterpreted,
    h.inRange.userFunctions, h.inRange.definitions, h.inRange.axioms⟩, rfl, rfl, rfl, rfl⟩

theorem Orderly.forked_named (h : w.Orderly L)
    (hf : w.session.fork w.scope .named = .ok (c.scope, c.session)) : w.Forked c := by
  obtain ⟨session, scope⟩ := c
  obtain ⟨rfl, rfl⟩ := Session.fork_named hf
  refine ⟨rfl, fun K => Scope.appliesOnly_blank K _ _ _ _, ⟨h.inRange.uninterpreted, ?_, ?_,
    h.inRange.axioms⟩, rfl, Branches.get_add_self _, Branches.get_add_self _, rfl⟩
  · simp [Scope.blank_eq, Branches.add]
  · simp [Scope.blank_eq, Branches.add]

variable {c' : Workspace}

/-- A parent reads the registries that its child leaves in branches of its own. -/
theorem resume_reads (hb : c'.scope.branches = w.scope.branches) :
    (w.resume c'.session).uninterpreted = c'.uninterpreted ∧
      (w.resume c'.session).userFunctions = c'.userFunctions ∧
      (w.resume c'.session).definitions = c'.definitions := by
  refine ⟨?_, ?_, ?_⟩
  · simp only [uninterpreted, resume, hb]
  · simp only [userFunctions, resume, hb]
  · simp only [Workspace.definitions, resume, hb]

/-- A child asserts nothing. -/
theorem Forked.axioms_back (hf : w.Forked c) (hs : c.Steps N c')
    (hb : c'.scope.branches.axioms = w.scope.branches.axioms) :
    (w.resume c'.session).axioms = w.axioms := by
  have hne : c.scope.level ≠ 0 := by
    rw [hf.level]
    exact Nat.succ_ne_zero _
  rw [← hf.axioms, ← hs.axioms hne]
  simp only [Workspace.axioms, resume, hb]

/-- The steps of a child that shares the registries are steps of its parent's. -/
theorem Orderly.steps_shared (h : w.Orderly L)
    (hf : w.session.fork w.scope purpose = .ok (c.scope, c.session)) (hp : purpose ≠ .named)
    (hs : c.Steps N c') :
    c'.scope.branches = w.scope.branches ∧ w.Steps N (w.resume c'.session) := by
  have hforked := h.forked_shared hf hp
  obtain ⟨hscope, hsession, -⟩ := Session.fork_shared hf hp
  have hcb : c.scope.branches = w.scope.branches := by rw [hscope, Scope.blank_eq]
  have hb : c'.scope.branches = w.scope.branches := hs.branches.trans hcb
  obtain ⟨hun, -, hdefs⟩ := resume_reads hb
  refine ⟨hb, rfl, rfl, fun f hw => ?_, ?_, fun d hd => ?_,
    fun _ => hforked.axioms_back hs (by rw [hb]), ?_, ?_⟩
  · unfold IsUninterpreted at hw ⊢
    rw [← hforked.uninterpreted] at hw
    rw [hun]
    exact hs.uninterpreted f hw
  · rw [hdefs, ← hforked.definitions]
    exact hs.definitions
  · rw [hdefs] at hd
    rw [← hforked.definitions]
    exact hs.added d hd
  · rw [← hcb, ← show c.session.userFunctions = w.session.userFunctions by rw [hsession]]
    exact hs.otherFunctions
  · rw [← hcb, ← show c.session.definitions = w.session.definitions by rw [hsession]]
    exact hs.otherDefinitions

/-- Back from a child that shares the registries, these are as the child left them. -/
theorem Orderly.back_shared (h : w.Orderly L)
    (hf : w.session.fork w.scope purpose = .ok (c.scope, c.session)) (hp : purpose ≠ .named)
    (hc : c'.Orderly L) (hs : c.Steps N c') :
    (w.resume c'.session).Orderly L ∧ w.Steps N (w.resume c'.session) ∧
      ∀ f, c'.Knows f → (w.resume c'.session).Knows f := by
  obtain ⟨hb, hsteps⟩ := h.steps_shared hf hp hs
  obtain ⟨hun, hfuns, hdefs⟩ := resume_reads hb
  refine ⟨⟨?_, ?_, ?_, ?_, ?_, ?_⟩, hsteps, fun f hk => ?_⟩
  · have hr := hc.inRange
    constructor <;> simp only [resume, ← hb]
    · exact hr.uninterpreted
    · exact hr.userFunctions
    · exact hr.definitions
    · exact hr.axioms
  · exact fun p hp f hf => hsteps.knows (h.applied p hp f hf)
  · intro f
    unfold Defines
    rw [hfuns, hdefs]
    exact hc.callable f
  · exact hdefs ▸ hc.nodup
  · unfold IsUninterpreted
    rw [hdefs, hun]
    exact hc.definitions
  · intro hl a ha
    rw [(h.forked_shared hf hp).axioms_back hs (by rw [hb])] at ha
    obtain ⟨t, label, hfree, ht, hk⟩ := h.axioms hl a ha
    exact ⟨t, label, hfree, ht, fun f hf => hsteps.knows (hk f hf)⟩
  · unfold Knows IsUninterpreted Defines
    rw [hun, hdefs]
    exact hk

/-- Back from the child of a named function, only the uninterpreted functions may be more. -/
theorem Orderly.back_named (h : w.Orderly L)
    (hf : w.session.fork w.scope .named = .ok (c.scope, c.session))
    (hc : c'.Orderly L) (hs : c.Steps N c') :
    w.Retains (w.resume c'.session) ∧
      ∀ f, c'.Knows f → (w.resume c'.session).Knows f ∨ N f := by
  have hforked := h.forked_named hf
  obtain ⟨hscope, hsession⟩ := Session.fork_named hf
  have hub : c'.scope.branches.uninterpreted = w.scope.branches.uninterpreted := by
    rw [hs.branches, hscope, Scope.blank_eq]
  have hab : c'.scope.branches.axioms = w.scope.branches.axioms := by
    rw [hs.branches, hscope, Scope.blank_eq]
  have hfuns (i : Nat) : w.session.userFunctions.Framed i c'.session.userFunctions := by
    have hother := hs.otherFunctions
    rw [hscope, hsession, Scope.blank_eq] at hother
    exact hother.of_add i
  have hdefs (i : Nat) : w.session.definitions.Framed i c'.session.definitions := by
    have hother := hs.otherDefinitions
    rw [hscope, hsession, Scope.blank_eq] at hother
    exact hother.of_add i
  have hun (f : String) (hw : c'.IsUninterpreted f) : (w.resume c'.session).IsUninterpreted f := by
    unfold IsUninterpreted uninterpreted at hw ⊢
    rw [hub] at hw
    exact hw
  have hdefinitions : (w.resume c'.session).definitions = w.definitions :=
    (hdefs (w.scope.branches.definitions + 1)).get_eq _ h.inRange.definitions
      (Nat.ne_of_lt (Nat.lt_succ_self _))
  have hr : w.Retains (w.resume c'.session) := by
    refine ⟨rfl, rfl, ⟨?_, ?_, ?_, ?_⟩, fun f hw => hun f (hs.uninterpreted f ?_), ?_, hdefinitions,
      hforked.axioms_back hs hab, hfuns _, hdefs _⟩
    · exact hub ▸ hc.inRange.uninterpreted
    · exact Nat.lt_of_lt_of_le h.inRange.userFunctions (hfuns 0).length_le
    · exact Nat.lt_of_lt_of_le h.inRange.definitions (hdefs 0).length_le
    · exact hab ▸ hc.inRange.axioms
    · unfold IsUninterpreted
      rw [hforked.uninterpreted]
      exact hw
    · exact (hfuns (w.scope.branches.userFunctions + 1)).get_eq _ h.inRange.userFunctions
        (Nat.ne_of_lt (Nat.lt_succ_self _))
  refine ⟨hr, fun f hk => ?_⟩
  rcases hk with hk | ⟨d, hd, rfl⟩
  · exact .inl (.inl (hun f hk))
  · rcases hs.added d hd with hd | hd
    · rw [hforked.definitions, ← hdefinitions] at hd
      exact .inl (.inr ⟨d, hd, rfl⟩)
    · exact .inr hd

end Workspace

end Forks

section Lowerings

variable {L N : String → Prop} {w : Workspace} {x : Work Value} {purpose : Purpose}
  {context name : String} {expected : Kind}

/-- From an orderly workspace the step leads to one, and it defines only names of `N`. -/
def Work.KeepsOrder (L N : String → Prop) {α : Type} (x : Work α) : Prop :=
  ∀ w : Workspace, w.Orderly L → (outcome x w).2.Orderly L ∧ w.Steps N (outcome x w).2

theorem Work.KeepsOrder.replayed (hx : x.KeepsOrder L N) :
    Work.KeepsOrder L N (Lowering.replayed x) := by
  intro w hw
  obtain ⟨ho, hs⟩ := hx w hw
  unfold Lowering.replayed
  rw [outcome_bind]
  rcases hr : outcome x w with ⟨_ | v, w'⟩ <;> rw [hr] at ho hs
  · exact ⟨ho, hs⟩
  · have hout : (outcome (Operation.addOutput v).run w').2 =
        (outcome (Work.build (Build.addOutput v) : Work NodeId) w').2 := by
      rw [Operation.outcome_run, outcome_build, Operation.scopeStep, Operation.outcome_map]
      rfl
    have hoperate := ho.operate (N := N) (o := .addOutput v) rfl
    rw [hout] at hoperate
    exact ⟨hoperate.1, hs.trans hoperate.2⟩

namespace Workspace.Orderly

open Lowering

/-- What a valid trace applies was known to the scope that it comes from. -/
theorem knows_of_applies {c : Workspace} (hc : c.Orderly L) {t : ValidTrace}
    (ht : c.scope.finish.validate context expected = .ok t) {f : String} (hf : t.Applies f) :
    c.Knows f := by
  obtain ⟨p, hp, hf⟩ := hf
  rw [ValidTrace.assignments_of_validate ht] at hp
  exact hc.applied p hp f hf

/-- A lambda or a constraint leaves the registries as its computation does, and its trace applies
what they know. -/
theorem ensures_trace_shared (h : w.Orderly L) (hx : x.KeepsOrder L N) (hp : purpose ≠ .named) :
    Ensures (trace w.scope purpose context expected x) w.session fun r s =>
      (w.resume s).Orderly L ∧ w.Steps N (w.resume s) ∧
        ∀ t, r = .ok t → t.NamesFree ∧ (purpose = .constraint → w.scope.level = 0) ∧
          ∀ f, t.Applies f → (w.resume s).Knows f := by
  refine ensures_trace (fun e _ => ⟨h, .refl w, fun _ ht => by cases ht⟩)
    fun child s hf c' hc' => ?_
  have hforked := h.forked_shared (c := ⟨s, child⟩) hf hp
  obtain ⟨ho, hs⟩ := hx.replayed _ (h.forked hforked)
  rw [hc'] at ho hs
  obtain ⟨ho', hs', hk⟩ := h.back_shared hf hp ho hs
  refine ⟨fun e => ⟨ho', hs', fun _ ht => by cases ht⟩, fun t ht => ⟨ho', hs', ?_⟩⟩
  rintro _ ⟨⟩
  exact ⟨ValidTrace.namesFree_of_validate ht, (Session.fork_shared hf hp).2.2,
    fun f hf => hk f (ho.knows_of_applies ht hf)⟩

/-- The computation of a named function leaves the registries alone, and its trace applies what
they know or what it defined for itself. -/
theorem ensures_trace_named (h : w.Orderly L) (hx : x.KeepsOrder L N) :
    Ensures (trace w.scope .named context expected x) w.session fun r s =>
      w.Retains (w.resume s) ∧
        ∀ t, r = .ok t → t.NamesFree ∧ ∀ f, t.Applies f → (w.resume s).Knows f ∨ N f := by
  refine ensures_trace (fun e he => ?_) fun child s hf c' hc' => ?_
  · cases he
  have hforked := h.forked_named (c := ⟨s, child⟩) hf
  obtain ⟨ho, hs⟩ := hx.replayed _ (h.forked hforked)
  rw [hc'] at ho hs
  obtain ⟨hr, hk⟩ := h.back_named hf ho hs
  refine ⟨fun e => ⟨hr, fun _ ht => by cases ht⟩, fun t ht => ⟨hr, ?_⟩⟩
  rintro _ ⟨⟩
  exact ⟨ValidTrace.namesFree_of_validate ht, fun f hf => hk f (ho.knows_of_applies ht hf)⟩

theorem ensures_lambda (h : w.Orderly L) (hx : x.KeepsOrder L N) :
    Ensures (Lowering.lambda w.scope expected x) w.session fun _ s =>
      (w.resume s).Orderly L ∧ w.Steps N (w.resume s) := by
  refine ensures_bind ((h.ensures_trace_shared hx (by decide)).mono fun r s hr => ?_)
  obtain ⟨ho, hs, -⟩ := hr
  cases r with
  | error e => exact ⟨ho, hs⟩
  | ok t => exact ensures_ofExcept (fun _ _ => ⟨ho, hs⟩) fun _ _ => ⟨ho, hs⟩

theorem ensures_constraint (h : w.Orderly L) (hx : x.KeepsOrder L N) (label : String) :
    Ensures (Lowering.constraint w.scope label x) w.session fun _ s =>
      (w.resume s).Orderly L ∧ w.Steps N (w.resume s) := by
  refine ensures_bind ((h.ensures_trace_shared hx (by decide)).mono fun r s hr => ?_)
  obtain ⟨ho, hs, ht⟩ := hr
  cases r with
  | error e => exact ⟨ho, hs⟩
  | ok t =>
    obtain ⟨hfree, hlevel, hknows⟩ := ht t rfl
    refine ensures_bind (ensures_ofExcept (fun text htext => ?_) fun _ _ => ⟨ho, hs⟩)
    obtain ⟨ho', hs'⟩ := ho.addAxiom (N := N) (hlevel rfl) ⟨t, label, hfree, htext, hknows⟩
    exact ensures_bind (ensures_modify (ensures_pure ⟨ho', hs.trans hs'⟩))

theorem ensures_checkSelfCalls (sig : Signature) (s : Session) :
    Ensures (checkSelfCalls w.scope name context sig : LowerT Id Unit) s fun _ t => t = s := by
  refine ensures_get_bind ?_
  dsimp only
  split
  · split_ifs
    · exact ensures_pure rfl
    · exact ensures_throw rfl
  · exact ensures_pure rfl

/-- A definition is registered at the end or not at all. -/
theorem ensures_define (h : w.Orderly L) (hx : x.KeepsOrder L N) (hN : ∀ f, N f → L f)
    (hname : ¬w.Defines name) (context : String) (expected : Kind) :
    Ensures (define w.scope name expected context x) w.session fun r s =>
      match r with
      | .ok _ => (w.resume s).Orderly L ∧ w.Steps (· = name) (w.resume s)
      | .error _ => w.Retains (w.resume s) := by
  refine ensures_bind ((h.ensures_trace_named hx).mono fun r s hr => ?_)
  obtain ⟨hr, ht⟩ := hr
  cases r with
  | error e => exact hr
  | ok t =>
    obtain ⟨hfree, hknows⟩ := ht t rfl
    refine ensures_bind ((ensures_checkSelfCalls _ s).mono fun r s' hs => ?_)
    subst hs
    cases r with
    | error e => exact hr
    | ok _ =>
      refine ensures_bind (ensures_ofExcept (fun d hd => ?_) fun _ _ => hr)
      have ho := h.retain hr fun p hp f hf => hr.knows (h.applied p hp f hf)
      obtain ⟨e, -, -, hde⟩ := Declaration.exists_ofDefinition hd
      have hdname : d.name = name := by
        rw [hde]
        rfl
      subst hdname
      have hnew : ¬(w.resume s').Defines d.name := fun hdef => hname ((hr.defines _).1 hdef)
      have happlied (f : String) (hf : f ∈ d.applied) :
          f = d.name ∨ (w.resume s').Knows f ∨ L f :=
        .inr ((hknows f ((Declaration.mem_applied ⟨hfree, hd⟩).1 hf)).imp_right (hN f))
      obtain ⟨ho', hs'⟩ := ho.register hnew ⟨t, hfree, hd⟩ happlied _
      exact ensures_bind (ensures_modify (ensures_pure ⟨ho', hr.steps.trans hs'⟩))

/-- A definition that fails leaves the registries as they were, and takes back its own name. -/
theorem ensures_function (h : w.Orderly L) (hx : x.KeepsOrder L N) (hN : ∀ f, N f → L f)
    (name : String) (expected : Kind) :
    Ensures (Lowering.function w.scope name expected x) w.session fun _ s =>
      (w.resume s).Orderly L ∧ w.Steps (· = name) (w.resume s) := by
  have retained {s : Session} (hr : w.Retains (w.resume s)) :
      (w.resume s).Orderly L ∧ w.Steps (· = name) (w.resume s) :=
    ⟨h.retain hr fun p hp f hf => hr.knows (h.applied p hp f hf), hr.steps⟩
  refine ensures_get_bind ?_
  dsimp only
  split
  · exact ensures_throw ⟨h, .refl w⟩
  · next hnone =>
    have hname : ¬w.Defines name := fun hdef => by
      have hsome := (h.callable name).2 hdef
      rw [show w.userFunctions.find? name = none from hnone] at hsome
      cases hsome
    have hdefine := h.ensures_define hx hN hname s!"{Purpose.named.describe} {name}" expected
    split_ifs with hun
    · refine hdefine.mono fun r s hr => ?_
      cases r with
      | ok d => exact hr
      | error e => exact retained hr
    · refine ensures_tryCatch (hdefine.mono fun r s hr => ?_)
      cases r with
      | ok d => exact hr
      | error e =>
        refine ensures_bind ?_
        cases e with
        | error e => exact ensures_modify (ensures_throw (retained (hr.forget hun)))
        | violation v => exact ensures_pure (ensures_throw (retained hr))

end Workspace.Orderly

end Lowerings

/-- A lowering that keeps order, and then a step that does. -/
theorem Workspace.Orderly.nested {L N : String → Prop} {w : Workspace} {α : Type}
    (x : Scope → LowerT Id α) {f : Except LowerError α → Work Value}
    (h : Lowering.Ensures (x w.scope) w.session fun _ s =>
      (w.resume s).Orderly L ∧ w.Steps N (w.resume s))
    (hf : ∀ r, (f r).KeepsOrder L N) :
    (outcome (Lowering.nested x >>= f) w).2.Orderly L ∧
      w.Steps N (outcome (Lowering.nested x >>= f) w).2 :=
  h.nested (R := fun w' => w'.Orderly L ∧ w.Steps N w') (fun _ _ hs => hs) fun _ r _ hs =>
    ⟨(hf r _ hs.1).1, hs.2.trans (hf r _ hs.1).2⟩

/-- A computation leaves an orderly workspace orderly, and defines only functions that it lowers. -/
theorem Computation.run_orderly {L N : String → Prop} (c : Computation)
    (hc : c.Uses (·.writesRegistry = false)) (hL : ∀ f, c.Nests f → L f)
    (hN : ∀ f, c.Lowers f → N f) : c.run.KeepsOrder L N := by
  induction c generalizing N with
  | result v => exact fun w hw => ⟨hw, .refl w⟩
  | abort e => exact fun w hw => ⟨hw, .refl w⟩
  | operate o next ih =>
    intro w hw
    have hstep := hw.operate (N := N) hc.1
    refine Work.attempt_bind (Q := fun w' => w'.Orderly L ∧ w.Steps N w') hstep fun r => ?_
    have hnext := ih r (hc.2 r) (fun f hf => hL f ⟨r, hf⟩) (fun f hf => hN f ⟨r, hf⟩) _ hstep.1
    exact ⟨hnext.1, hstep.2.trans hnext.2⟩
  | inspect next ih =>
    exact fun w hw => ih w (hc w) (fun f hf => hL f ⟨w, hf⟩) (fun f hf => hN f ⟨w, hf⟩) w hw
  | lambda expected body next ihb ih =>
    intro w hw
    have hbody := ihb hc.1 (fun f hf => hL f (.inl hf)) fun f hf => hN f (.inl hf)
    refine Workspace.Orderly.nested (Lowering.lambda · expected body.run) (hw.ensures_lambda hbody)
      fun r => ?_
    exact ih r (hc.2 r) (fun f hf => hL f (.inr ⟨r, hf⟩)) fun f hf => hN f (.inr ⟨r, hf⟩)
  | function name expected body next ihb ih =>
    intro w hw
    have hbody := ihb (N := (body.Lowers ·)) hc.1 (fun f hf => hL f (.inl hf.lowers)) fun _ hf => hf
    have hfunction := hw.ensures_function hbody (fun f hf => hL f (.inl hf)) name expected
    refine Workspace.Orderly.nested (Lowering.function · name expected body.run)
      (hfunction.mono fun r s hs => ⟨hs.1, hs.2.mono fun f hf => hN f (.inl hf.symm)⟩) fun r => ?_
    exact ih r (hc.2 r) (fun f hf => hL f (.inr ⟨r, hf⟩)) fun f hf => hN f (.inr (.inr ⟨r, hf⟩))
  | constraint label body next ihb ih =>
    intro w hw
    have hbody := ihb hc.1 (fun f hf => hL f (.inl hf)) fun f hf => hN f (.inl hf)
    refine Workspace.Orderly.nested (Lowering.constraint · label body.run)
      (hw.ensures_constraint hbody label) fun r => ?_
    exact ih r (hc.2 r) (fun f hf => hL f (.inr ⟨r, hf⟩)) fun f hf => hN f (.inr ⟨r, hf⟩)

end SmtLowering
