import SmtLowering.Proofs.Isolation
import SmtLowering.Proofs.Translations

/-!
# Runs with their numbers ahead

Two sessions may differ in how many scopes, tables and arrays they have numbered already. `Offset`
says how far one is ahead. A scope of one then stands for a scope of the other with all numbers
ahead (`Offset.translation`), and in workspaces that correspond (`Offset.Matches`) an operation, a
fork and the end of a lowering do the same but for the numbers. The parent's own scope plays no part
in a lowering but for its level and its configuration (`Offset.Ahead`).
-/

namespace SmtLowering

/-- How far numbers are ahead: those of scopes, of tables and of arrays. -/
structure Offset where
  scopes : Nat
  tables : Nat
  arrays : Nat
  deriving DecidableEq

namespace Offset

section Names

variable (δ : Offset)

/-- Nodes are numbered in each scope alone. -/
def names : Renaming where
  owner := (· + δ.scopes)
  node _ n := n
  tableId := (· + δ.tables)
  arrayId := (· + δ.arrays)

abbrev value : Value → Value := δ.names.value

abbrev error : ValueError → ValueError := δ.names.error

def unsupported : Unsupported → Unsupported
  | .tables found => .tables (found.map δ.names.table)
  | .arrays found => .arrays (found.map δ.names.array)
  | u => u

def lowerError : LowerError → LowerError
  | .unsupported context cause => .unsupported context (δ.unsupported cause)
  | .replay context cause => .replay context (δ.error cause)
  | e => e

/-- How a lowering ends in the run that is ahead: a result is the same. -/
def ending {α : Type} : Except (Fault LowerError) α → Except (Fault LowerError) α :=
  Except.mapBoth (Fault.map δ.lowerError) id

theorem faithful : δ.names.Faithful where
  owner _ _ := Nat.add_right_cancel
  node _ _ _ := id

/-- The scope with numbers that are ahead, which uses its own branches of the registries. -/
def translation (b : BranchIds) : Translation where
  toRenaming := δ.names
  scope s := { s with
    number := s.number + δ.scopes
    branches := b
    exprIds := s.exprIds.map fun p => (δ.names.expr p.1, p.2)
    assignments := s.assignments.map fun p => (p.1, δ.names.expr p.2)
    tables := s.tables.map δ.names.table
    arrays := s.arrays.map δ.names.array }
  Admits s := ∀ p ∈ s.assignments, Discipline.Declares s p.2.op

variable {δ}

theorem expr_injective : Function.Injective δ.names.expr := by
  rintro ⟨op, domain, args⟩ ⟨op', domain', args'⟩ h
  simp only [Renaming.expr, Expr.mk.injEq] at h ⊢
  refine ⟨?_, h.2⟩
  have hop := h.1
  cases op <;> cases op' <;> simp_all [Renaming.op, names]

theorem lookup_expr (entries : List (Expr × NodeId)) (e : Expr) :
    (entries.map fun p => (δ.names.expr p.1, p.2)).lookup (δ.names.expr e) =
      entries.lookup e := by
  induction entries with
  | nil => rfl
  | cons p ps ih =>
    have hbeq : (δ.names.expr e == δ.names.expr p.1) = (e == p.1) := by
      rw [Bool.eq_iff_iff, beq_iff_eq, beq_iff_eq, expr_injective.eq_iff]
    rw [List.map_cons, List.lookup_cons, List.lookup_cons, hbeq, ih]

theorem translation_lawful (b : BranchIds) : (δ.translation b).Lawful where
  faithful := δ.faithful
  number _ := rfl
  node _ _ := rfl
  constant {s} c hs := by
    rcases hl : s.constIds.lookup c with _ | n
    · rw [Scope.constant_of_lookup_none hl, Scope.constant_of_lookup_none (by exact hl)]
      exact ⟨hs, rfl⟩
    · rw [Scope.constant_of_lookup hl, Scope.constant_of_lookup (by exact hl)]
      exact ⟨hs, rfl⟩
  intern {s e} k hs he := by
    have hlookup : ((δ.translation b).scope s).exprIds.lookup ((δ.translation b).expr e) =
        s.exprIds.lookup e := lookup_expr s.exprIds e
    rcases hl : s.exprIds.lookup e with _ | n
    · rw [Scope.intern_of_lookup_none hl, Scope.intern_of_lookup_none (hlookup.trans hl)]
      refine ⟨fun p hp => ?_, ?_⟩
      · rcases List.mem_append.1 hp with hp | hp
        · exact hs p hp
        · obtain rfl := List.mem_singleton.1 hp
          exact he
      · simp only [translation, List.map_append, List.map_cons, List.map_nil]
        rfl
    · rw [Scope.intern_of_lookup hl, Scope.intern_of_lookup (hlookup.trans hl)]
      exact ⟨hs, rfl⟩
  addInput role name k hs := ⟨hs, rfl, rfl⟩
  record {s} r hs := by
    refine ⟨fun p hp => ?_, ?_⟩
    · refine Discipline.declares_grows (s.record_grows r) (hs p ?_)
      cases r <;> exact hp
    · cases r <;>
        simp only [translation, Renaming.recording, Scope.record, List.map_append, List.map_cons,
          List.map_nil]

end Names

end Offset

namespace Branches

variable {α : Type} {bs bs' : Branches α} {i j : Nat}

theorem lt_update (h : j < bs.contents.length) (f : α → α) :
    j < (bs.update i f).contents.length := by
  rwa [length_update]

/-- What reads the same and is changed in the same way still does. -/
theorem update_congr [Inhabited α] (hi : i < bs.contents.length) (hj : j < bs'.contents.length)
    (h : bs'.get j = bs.get i) (f : α → α) : (bs'.update j f).get j = (bs.update i f).get i := by
  rw [get_update_self _ hi, get_update_self _ hj, h]

end Branches

namespace Workspace

/-- The session has all branches that the scope names, those of the counters included. -/
structure Rooted (w : Workspace) : Prop extends w.InRange where
  tableIds : w.scope.branches.tableIds < w.session.tableIds.contents.length
  arrayIds : w.scope.branches.arrayIds < w.session.arrayIds.contents.length

structure SameFunctions (w w' : Workspace) : Prop where
  userFunctions : w'.userFunctions = w.userFunctions
  definitions : w'.definitions = w.definitions

structure SameRegistries (w w' : Workspace) : Prop extends w.SameFunctions w' where
  uninterpreted : w'.uninterpreted = w.uninterpreted
  axioms : w'.axioms = w.axioms

/-- What a lowering takes from its parent's scope. -/
structure SameLevel (w w' : Workspace) : Prop where
  level : w'.scope.level = w.scope.level
  config : w'.scope.config = w.scope.config

theorem SameLevel.symm {w w' : Workspace} (h : w.SameLevel w') : w'.SameLevel w :=
  ⟨h.level.symm, h.config.symm⟩

/-- How many scopes, tables and arrays were numbered so far. -/
def offset (w : Workspace) : Offset := ⟨w.session.scopes, w.takeTableId.1, w.takeArrayId.1⟩

end Workspace

section Back

variable {w c : Workspace} {purpose : Purpose} {child : Scope} {s : Session}

/-- Every fork uses its parent's branches for what it shares. -/
theorem Session.fork_branches (hf : w.session.fork w.scope purpose = .ok (child, s)) :
    child.branches =
      { w.scope.branches with
        userFunctions := child.branches.userFunctions
        definitions := child.branches.definitions } := by
  by_cases hp : purpose = .named
  · subst hp
    obtain ⟨rfl, -⟩ := Session.fork_named hf
    rw [Scope.blank_eq]
  · obtain ⟨rfl, -, -⟩ := Session.fork_shared hf hp
    rw [Scope.blank_eq]

variable (hf : w.session.fork w.scope purpose = .ok (child, s)) (h : Workspace.Writes ⟨s, child⟩ c)
include hf h

/-- Back in the parent, what every fork shares reads as from the fork. -/
theorem Workspace.Writes.reads_back : World.ReadsAs c ⟨c.session, w.scope⟩ := by
  have hb : c.scope.branches = child.branches := h.branches
  rw [Session.fork_branches hf] at hb
  constructor <;>
    simp only [Workspace.uninterpreted, Workspace.axioms, Workspace.takeTableId,
      Workspace.takeArrayId, hb]

/-- Functions and definitions read as from the fork as well, unless it had copies. -/
theorem Workspace.Writes.functions_back (hp : purpose ≠ .named) :
    c.SameFunctions ⟨c.session, w.scope⟩ := by
  obtain ⟨rfl, -, -⟩ := Session.fork_shared hf hp
  have hb : c.scope.branches = w.scope.branches := h.branches
  constructor <;> simp only [Workspace.userFunctions, Workspace.definitions, hb]

/-- If the fork had copies, the parent's functions and definitions are as they were. -/
theorem Workspace.Writes.functions_kept (hr : w.InRange) (hp : purpose = .named) :
    w.SameFunctions ⟨c.session, w.scope⟩ := by
  subst hp
  obtain ⟨hfuns, hdefs⟩ := h.named_back hr hf
  exact ⟨hfuns, hdefs⟩

theorem Workspace.Rooted.back (hr : w.Rooted) (hc : c.Rooted) :
    Workspace.Rooted ⟨c.session, w.scope⟩ := by
  have hb : c.scope.branches = child.branches := h.branches
  rw [Session.fork_branches hf] at hb
  have htables := hc.tableIds
  have harrays := hc.arrayIds
  rw [hb] at htables harrays
  exact { (Workspace.Writes.of_fork hf h).inRange hr.toInRange with
    tableIds := htables
    arrayIds := harrays }

end Back

namespace Offset

/-- The registries are the same, and the counters are ahead. -/
structure Ahead (δ : Offset) (w w' : Workspace) : Prop extends w.SameRegistries w' where
  rooted : w.Rooted
  rooted' : w'.Rooted
  scopes : w'.session.scopes = w.session.scopes + δ.scopes
  tableId : w'.takeTableId.1 = w.takeTableId.1 + δ.tables
  arrayId : w'.takeArrayId.1 = w.takeArrayId.1 + δ.arrays

/-- The scope stands for the other one as well, and declares what its expressions name. -/
structure Matches (δ : Offset) (w w' : Workspace) : Prop extends δ.Ahead w w' where
  scope : w'.scope = (δ.translation w'.scope.branches).scope w.scope
  admits : (δ.translation w'.scope.branches).Admits w.scope

variable {δ : Offset} {w w' : Workspace}

section Sessions

/-- Only the branches of a scope are read. -/
theorem Ahead.of_branches (h : δ.Ahead w w') {s s' : Scope}
    (hb : s.branches = w.scope.branches) (hb' : s'.branches = w'.scope.branches) :
    δ.Ahead ⟨w.session, s⟩ ⟨w'.session, s'⟩ := by
  have hr := h.rooted
  have hr' := h.rooted'
  refine ⟨⟨⟨?_, ?_⟩, ?_, ?_⟩, ⟨⟨?_, ?_, ?_, ?_⟩, ?_, ?_⟩, ⟨⟨?_, ?_, ?_, ?_⟩, ?_, ?_⟩, h.scopes,
    ?_, ?_⟩ <;>
    simp only [Workspace.uninterpreted, Workspace.userFunctions, Workspace.definitions,
      Workspace.axioms, Workspace.takeTableId, Workspace.takeArrayId, hb, hb']
  · exact h.userFunctions
  · exact h.definitions
  · exact h.uninterpreted
  · exact h.axioms
  · exact hr.uninterpreted
  · exact hr.userFunctions
  · exact hr.definitions
  · exact hr.axioms
  · exact hr.tableIds
  · exact hr.arrayIds
  · exact hr'.uninterpreted
  · exact hr'.userFunctions
  · exact hr'.definitions
  · exact hr'.axioms
  · exact hr'.tableIds
  · exact hr'.arrayIds
  · exact h.tableId
  · exact h.arrayId

section Registries

variable (h : δ.Ahead w w')
include h

theorem Ahead.signature? (name : String) : w'.signature? name = w.signature? name := by
  unfold Workspace.signature?
  rw [h.userFunctions, h.uninterpreted]

theorem Ahead.mapUninterpreted (f : NameTable Signature → NameTable Signature) :
    δ.Ahead (w.mapUninterpreted f) (w'.mapUninterpreted f) :=
  { h with
    uninterpreted := Branches.update_congr h.rooted.uninterpreted h.rooted'.uninterpreted
      h.uninterpreted f
    rooted := { h.rooted with uninterpreted := Branches.lt_update h.rooted.uninterpreted _ }
    rooted' := { h.rooted' with uninterpreted := Branches.lt_update h.rooted'.uninterpreted _ } }

theorem Ahead.registerDefinition (sig : Signature) (d : Declaration) :
    δ.Ahead (w.registerDefinition sig d) (w'.registerDefinition sig d) :=
  { h with
    userFunctions := Branches.update_congr h.rooted.userFunctions h.rooted'.userFunctions
      h.userFunctions _
    definitions := Branches.update_congr h.rooted.definitions h.rooted'.definitions
      h.definitions _
    rooted := { h.rooted with
      userFunctions := Branches.lt_update h.rooted.userFunctions _
      definitions := Branches.lt_update h.rooted.definitions _ }
    rooted' := { h.rooted' with
      userFunctions := Branches.lt_update h.rooted'.userFunctions _
      definitions := Branches.lt_update h.rooted'.definitions _ } }

theorem Ahead.addAxiom (text : String) : δ.Ahead (w.addAxiom text) (w'.addAxiom text) :=
  { h with
    axioms := Branches.update_congr h.rooted.axioms h.rooted'.axioms h.axioms _
    rooted := { h.rooted with axioms := Branches.lt_update h.rooted.axioms _ }
    rooted' := { h.rooted' with axioms := Branches.lt_update h.rooted'.axioms _ } }

theorem Ahead.takeTableId : δ.Ahead w.takeTableId.2 w'.takeTableId.2 := by
  refine { h with
    tableId := ?_
    rooted := { h.rooted with tableIds := Branches.lt_update h.rooted.tableIds _ }
    rooted' := { h.rooted' with tableIds := Branches.lt_update h.rooted'.tableIds _ } }
  have hid := h.tableId
  simp only [Workspace.takeTableId] at hid ⊢
  rw [Branches.get_update_self _ h.rooted.tableIds, Branches.get_update_self _ h.rooted'.tableIds]
  omega

theorem Ahead.takeArrayId : δ.Ahead w.takeArrayId.2 w'.takeArrayId.2 := by
  refine { h with
    arrayId := ?_
    rooted := { h.rooted with arrayIds := Branches.lt_update h.rooted.arrayIds _ }
    rooted' := { h.rooted' with arrayIds := Branches.lt_update h.rooted'.arrayIds _ } }
  have hid := h.arrayId
  simp only [Workspace.takeArrayId] at hid ⊢
  rw [Branches.get_update_self _ h.rooted.arrayIds, Branches.get_update_self _ h.rooted'.arrayIds]
  omega

/-- The session that an operation leaves depends on what the session reads and on the operands'
kinds and literals. -/
theorem Ahead.sessionAfter (o : Operation) :
    δ.Ahead ⟨o.sessionAfter w, w.scope⟩ ⟨(o.map δ.value).sessionAfter w', w'.scope⟩ := by
  cases o with
  | apply name result args =>
    simp only [Operation.map, Operation.sessionAfter, h.signature? name, Renaming.map_kind_value]
    rcases w.signature? name with _ | sig
    · exact h.mapUninterpreted _
    · exact h
  | lookup entries index fallback =>
    simp only [Operation.map, Operation.sessionAfter, Renaming.needsTable_map]
    split_ifs
    · exact h.takeTableId
    · exact h
  | newArray name key value => exact h.takeArrayId
  | registerDefinition sig d => exact h.registerDefinition sig d
  | addAxiom text => exact h.addAxiom text
  | forgetUninterpreted name => exact h.mapUninterpreted _
  | _ => exact h

end Registries

end Sessions

section Scopes

/-- A step of the scope, in sessions whose registries are the same. -/
theorem Matches.step (h : δ.Matches w w') {α : Type} {g : α → α} {m m' : Build α}
    (hm : (δ.translation w'.scope.branches).Mirrors g m m' w.scope) {s s' : Session}
    (hs : δ.Ahead ⟨s, w.scope⟩ ⟨s', w'.scope⟩) :
    (outcome m' w'.scope).1 = δ.names.result g (outcome m w.scope).1 ∧
      δ.Matches ⟨s, (outcome m w.scope).2⟩ ⟨s', (outcome m' w'.scope).2⟩ := by
  obtain ⟨hg, hadmits, hrun⟩ := hm
  rw [← h.scope] at hrun
  have hscope := congrArg Prod.snd hrun
  have hb : (outcome m' w'.scope).2.branches = w'.scope.branches :=
    (congrArg Scope.branches hscope).trans rfl
  refine ⟨congrArg Prod.fst hrun, { hs.of_branches hg.branches hb with
    scope := ?_
    admits := hadmits }⟩
  rw [hb]
  exact hscope

/-- An operation on operands with their numbers ahead. -/
theorem Matches.operate (h : δ.Matches w w') (o : Operation) :
    (outcome (o.map δ.value).run w').1 =
        δ.names.result (Option.map δ.value) (outcome o.run w).1 ∧
      δ.Matches (outcome o.run w).2 (outcome (o.map δ.value).run w').2 := by
  have hm := (translation_lawful w'.scope.branches).mirrors_scopeStep h.admits
    (fun name => h.signature? name) h.tableId h.arrayId o
  rw [Operation.outcome_run, Operation.outcome_run]
  exact h.step hm (h.sessionAfter o)

/-- A fork that is refused here is refused there, with an error that names no number. -/
theorem fork_error (δ : Offset) (hl : w.SameLevel w') {purpose : Purpose} {e : LowerError}
    (hf : w.session.fork w.scope purpose = .error e) :
    w'.session.fork w'.scope purpose = .error e ∧ δ.lowerError e = e := by
  unfold Session.fork at hf ⊢
  rw [hl.level]
  split_ifs at hf ⊢
  cases hf
  exact ⟨rfl, rfl⟩

theorem blank_matches {n level : Nat} {config : Config} {b b' : BranchIds} {s s' : Session}
    (h : δ.Ahead ⟨s, .blank n level config b⟩ ⟨s', .blank (n + δ.scopes) level config b'⟩) :
    δ.Matches ⟨s, .blank n level config b⟩ ⟨s', .blank (n + δ.scopes) level config b'⟩ :=
  { h with
    scope := by simp only [Scope.blank_eq]; rfl
    admits := fun _ hp => by cases hp }

/-- A fork has recorded nothing, and reads what its parent reads. -/
theorem Ahead.fork (h : δ.Ahead w w') (hl : w.SameLevel w') {purpose : Purpose}
    {child child' : Scope} {s s' : Session}
    (hf : w.session.fork w.scope purpose = .ok (child, s))
    (hf' : w'.session.fork w'.scope purpose = .ok (child', s')) :
    δ.Matches ⟨s, child⟩ ⟨s', child'⟩ := by
  by_cases hp : purpose = .named
  · subst hp
    obtain ⟨rfl, rfl⟩ := Session.fork_named hf
    obtain ⟨rfl, rfl⟩ := Session.fork_named hf'
    have hfuns := h.userFunctions
    have hdefs := h.definitions
    simp only [hl.level, hl.config, h.scopes]
    refine blank_matches { h with
      userFunctions := ?_
      definitions := ?_
      scopes := Nat.add_right_comm _ _ _
      rooted := { h.rooted with
        userFunctions := Branches.lt_add _ _
        definitions := Branches.lt_add _ _ }
      rooted' := { h.rooted' with
        userFunctions := Branches.lt_add _ _
        definitions := Branches.lt_add _ _ } }
    · exact (Branches.get_add_self _).trans (hfuns.trans (Branches.get_add_self _).symm)
    · exact (Branches.get_add_self _).trans (hdefs.trans (Branches.get_add_self _).symm)
  · obtain ⟨rfl, rfl, -⟩ := Session.fork_shared hf hp
    obtain ⟨rfl, rfl, -⟩ := Session.fork_shared hf' hp
    simp only [hl.level, hl.config, h.scopes]
    exact blank_matches { h with
      scopes := Nat.add_right_comm _ _ _
      rooted := { h.rooted with }
      rooted' := { h.rooted' with } }

end Scopes

section Back

/-- Back in the parents, the registries are again the same. -/
theorem Ahead.back (h : δ.Ahead w w') {purpose : Purpose} {child child' : Scope} {s s' : Session}
    (hf : w.session.fork w.scope purpose = .ok (child, s))
    (hf' : w'.session.fork w'.scope purpose = .ok (child', s')) {c c' : Workspace}
    (hw : Workspace.Writes ⟨s, child⟩ c) (hw' : Workspace.Writes ⟨s', child'⟩ c')
    (hc : δ.Ahead c c') : δ.Ahead ⟨c.session, w.scope⟩ ⟨c'.session, w'.scope⟩ := by
  have hreads := hw.reads_back hf
  have hreads' := hw'.reads_back hf'
  have hfunctions : Workspace.SameFunctions ⟨c.session, w.scope⟩ ⟨c'.session, w'.scope⟩ := by
    by_cases hp : purpose = .named
    · have hown := hw.functions_kept hf h.rooted.toInRange hp
      have hown' := hw'.functions_kept hf' h.rooted'.toInRange hp
      exact ⟨hown'.userFunctions.trans (h.userFunctions.trans hown.userFunctions.symm),
        hown'.definitions.trans (h.definitions.trans hown.definitions.symm)⟩
    · have hown := hw.functions_back hf hp
      have hown' := hw'.functions_back hf' hp
      exact ⟨hown'.userFunctions.trans (hc.userFunctions.trans hown.userFunctions.symm),
        hown'.definitions.trans (hc.definitions.trans hown.definitions.symm)⟩
  exact { hfunctions with
    uninterpreted := hreads'.uninterpreted ▸ hreads.uninterpreted ▸ hc.uninterpreted
    axioms := hreads'.axioms ▸ hreads.axioms ▸ hc.axioms
    rooted := h.rooted.back hf hw hc.rooted
    rooted' := h.rooted'.back hf' hw' hc.rooted'
    scopes := hc.scopes
    tableId := hreads'.tableId ▸ hreads.tableId ▸ hc.tableId
    arrayId := hreads'.arrayId ▸ hreads.arrayId ▸ hc.arrayId }

end Back

section Ends

open Target

variable {context : String} {k : Kind} {b : BranchIds} {s : Scope}

/-- A check fails where it failed, and names tables and arrays with their numbers ahead. -/
theorem run_check (s : Scope) (check : Check) :
    Check.run context ((δ.translation b).scope s).finish k check =
      (Check.run context s.finish k check).map δ.lowerError := by
  have hrefuse {α : Type} (cause : List α → Unsupported) (g : α → α) (found : List α)
      (hcause : δ.unsupported (cause found) = cause (found.map g)) :
      Check.refuse context cause (found.map g) =
        (Check.refuse context cause found).map δ.lowerError := by
    simp only [Check.refuse, List.isEmpty_map]
    split_ifs
    · rfl
    · rw [← hcause]
      rfl
  have hsame {α : Type} (cause : List α → Unsupported) (found : List α)
      (hcause : δ.unsupported (cause found) = cause found) :
      Check.refuse context cause found =
        (Check.refuse context cause found).map δ.lowerError := by
    have h := hrefuse cause id found (by rw [List.map_id, hcause])
    rwa [List.map_id] at h
  cases check with
  | tables => exact hrefuse .tables _ s.tables rfl
  | arrays => exact hrefuse .arrays _ s.arrays rfl
  | output =>
    change (Check.outputError? s.finish k).map _ = ((Check.outputError? s.finish k).map _).map _
    rw [Option.map_map]
    rfl
  | observables => exact hsame .observables s.observables rfl
  | codeSegments => exact hsame .codeSegments s.codeSegments rfl
  | constraints => exact hsame .constraints s.constraints rfl
  | assertions => exact hsame .assertions s.assertions rfl
  | existentials => exact hsame .existentials _ rfl
  | trackers => exact hsame .trackers _ rfl

/-- What names no table and no array has no number in it. -/
theorem expr_of_declares {e : Expr} (he : Discipline.Declares s e.op) (ht : s.tables = [])
    (ha : s.arrays = []) : δ.names.expr e = e := by
  obtain ⟨op, domain, args⟩ := e
  cases op with
  | table id =>
    obtain ⟨t, hm, -⟩ := he
    rw [ht] at hm
    cases hm
  | arrayRef id =>
    obtain ⟨a, hm, -⟩ := he
    rw [ha] at hm
    cases hm
  | _ => rfl

/-- A valid trace has no number in it at all. -/
theorem validate_translation (hs : (δ.translation b).Admits s) :
    ((δ.translation b).scope s).finish.validate context k =
      (s.finish.validate context k).mapError δ.lowerError := by
  have hfind : Check.all.findSome? (Check.run context ((δ.translation b).scope s).finish k) =
      (Check.all.findSome? (Check.run context s.finish k)).map δ.lowerError := by
    rw [List.map_findSome?]
    exact congrArg Check.all.findSome? (funext (run_check s))
  rcases hnone : Check.all.findSome? (Check.run context s.finish k) with _ | e
  · have hvalid : s.finish.validate context k =
        .ok (s.finish.valid k (s.finish.outputs.headD NodeId.falsity)) := by
      simp only [Trace.validate_eq, hnone]
    obtain ⟨htables, harrays, -⟩ := Trace.validate_ok hvalid
    have hassignments : s.assignments.map (fun p => (p.1, δ.names.expr p.2)) = s.assignments := by
      refine (List.map_congr_left fun p hp => ?_).trans (List.map_id _)
      rw [expr_of_declares (hs p hp) htables harrays]
      rfl
    rw [hvalid]
    simp only [Trace.validate_eq, hfind, hnone, Option.map_none]
    simp only [Trace.valid, Scope.finish, translation, hassignments]
    rfl
  · simp only [Trace.validate_eq, hfind, hnone]
    rfl

/-- What a valid trace is spelled as depends on the signatures alone. -/
theorem Ahead.emit (h : δ.Ahead w w') (v : ValidTrace) (t : Target) :
    t.emit w' v = δ.ending (t.emit w v) := by
  refine Eq.trans ?_ (map_emit (fun _ _ _ => rfl) t w v).symm
  cases t with
  | function name k => simp only [Target.emit, h.uninterpreted]
  | lambda k | constraint label => rfl

theorem Ahead.enter (h : δ.Ahead w w') (v : ValidTrace) (t : Target) (a : t.Result) :
    δ.Ahead ⟨(t.enter w v a).session, w.scope⟩ ⟨(t.enter w' v a).session, w'.scope⟩ := by
  cases t with
  | lambda k => exact h
  | function name k => exact h.registerDefinition _ a
  | constraint label => exact h.addAxiom a

theorem Ahead.withdraw (h : δ.Ahead w w') {u u' : Workspace}
    (hu : u'.uninterpreted = u.uninterpreted) (t : Target) (f : Fault LowerError) :
    δ.Ahead ⟨(t.withdraw u w f).session, w.scope⟩
      ⟨(t.withdraw u' w' (f.map δ.lowerError)).session, w'.scope⟩ := by
  cases t with
  | lambda k | constraint label => exact h
  | function name k =>
    cases f with
    | violation v => exact h
    | error e =>
      simp only [Fault.map, Target.withdraw, hu]
      split_ifs
      · exact h
      · exact h.mapUninterpreted _

/-- A lowering ends as it does in the other run, and leaves the same registries. -/
theorem Ahead.conclude (h : δ.Ahead w w') {c c' : Workspace} (hc : δ.Matches c c')
    (hback : δ.Ahead ⟨c.session, w.scope⟩ ⟨c'.session, w'.scope⟩) (t : Target)
    (r : Except (Fault ValueError) NodeId) :
    (t.conclude w' (δ.names.result id r) c').1 = δ.ending (t.conclude w r c).1 ∧
      δ.Ahead ⟨(t.conclude w r c).2, w.scope⟩
        ⟨(t.conclude w' (δ.names.result id r) c').2, w'.scope⟩ := by
  have hsettle : settle t.context t.expected (δ.names.result id r) c'.scope =
      δ.ending (settle t.context t.expected r c.scope) := by
    rw [hc.scope]
    exact settle_map (fun _ => rfl) (validate_translation hc.admits) r
  simp only [Target.conclude, hsettle]
  rcases settle t.context t.expected r c.scope with f | v
  · exact ⟨rfl, hback.withdraw h.uninterpreted t f⟩
  · have hemit := hback.emit v t
    simp only [ending, Except.mapBoth, id] at hemit ⊢
    rw [hemit]
    rcases t.emit ⟨c.session, w.scope⟩ v with f | a
    · exact ⟨rfl, hback.withdraw h.uninterpreted t f⟩
    · exact ⟨rfl, hback.enter v t a⟩

end Ends

end Offset

end SmtLowering
