import SmtLowering.Proofs.OrderlyRuns

/-!
# What a session declares

Before its queries a session declares options, the uninterpreted functions that have no definition,
definitions and axioms, in that order (`Workspace.declarations`). What these apply is declared as
well, and before it is applied, with two exceptions. A function that the computation of another one
defined for itself is missing (`Computation.declarations_closed`), and one that was applied before
it was defined comes too late (`Computation.declarations_ordered`).
-/

namespace SmtLowering

namespace Workspace

variable {L : String → Prop} {w : Workspace} {f : String}

/-- The declarations have a line for the function, or the definition of it. -/
def Emits (w : Workspace) (f : String) : Prop :=
  (∃ sig, w.uninterpreted.find? f = some sig ∧ sig.declare f ∈ w.declarations) ∨
    ∃ d ∈ w.definitions, d.name = f ∧ d.render ∈ w.declarations

/-- The lines before the definitions. -/
def preamble (w : Workspace) : List String :=
  w.scope.config.optionLines ++
    (w.uninterpreted.entries.filter fun (name, _) =>
      !(w.definitions.map (·.name)).contains name).map fun (name, sig) => sig.declare name

theorem declarations_eq (w : Workspace) :
    w.declarations = w.preamble ++ w.definitions.map (·.render) ++ w.axioms := rfl

/-- A function that was declared and never defined has its line. -/
theorem declare_mem_preamble {sig : Signature} (h : w.uninterpreted.find? f = some sig)
    (hf : ¬w.Defines f) : sig.declare f ∈ w.preamble := by
  refine List.mem_append_right _ (List.mem_map.2 ⟨(f, sig), List.mem_filter.2 ⟨?_, ?_⟩, rfl⟩)
  · obtain ⟨before, after, hentries, -⟩ := List.lookup_eq_some_iff.1 h
    rw [hentries]
    exact List.mem_append_right _ List.mem_cons_self
  · simpa [Defines] using hf

theorem Knows.emits (h : w.Knows f) : w.Emits f := by
  by_cases hf : w.Defines f
  · obtain ⟨d, hd, hname⟩ := hf
    refine .inr ⟨d, hd, hname, ?_⟩
    rw [declarations_eq]
    exact List.mem_append_left _ (List.mem_append_right _ (List.mem_map_of_mem hd))
  · rcases h with h | h
    · obtain ⟨sig, hsig⟩ := Option.isSome_iff_exists.1 h
      refine .inl ⟨sig, hsig, ?_⟩
      rw [declarations_eq]
      exact List.mem_append_left _ (List.mem_append_left _ (declare_mem_preamble hsig hf))
    · exact (hf h).elim

theorem new_orderly (config : Config) : (new config).Orderly L where
  inRange := ⟨Nat.one_pos, Nat.one_pos, Nat.one_pos, Nat.one_pos⟩
  applied := Scope.appliesOnly_blank _ _ _ _ _
  callable f := by
    constructor
    · intro h
      cases h
    · rintro ⟨d, hd, -⟩
      cases hd
  nodup := List.nodup_nil
  definitions i d hd := by cases hd
  axioms _ a ha := by cases ha

end Workspace

namespace Computation

variable (c : Computation) (config : Config)

/-- What the computation leaves of a session that it starts. -/
def session : Workspace := (outcome c.run (.new config)).2

variable {c}

theorem session_orderly (hc : c.Uses (·.writesRegistry = false)) :
    (c.session config).Orderly (c.Nests ·) ∧ (c.session config).scope.level = 0 := by
  obtain ⟨ho, hs⟩ := run_orderly (L := (c.Nests ·)) (N := (c.Lowers ·)) c hc (fun _ h => h)
    (fun _ h => h) (.new config) (Workspace.new_orderly config)
  exact ⟨ho, hs.level⟩

section Sessions

/-- The value of a function without arguments. -/
def call (f : String) (k : Kind) : Computation :=
  .operate (.apply f k []) fun
    | .ok (some v) => .result v
    | .ok none => .abort (.user "no value")
    | .error e => .abort e

theorem call_uses (f : String) (k : Kind) : (call f k).Uses (·.writesRegistry = false) := by
  refine ⟨rfl, fun r => ?_⟩
  rcases r with _ | _ | _ <;> trivial

def one : Computation := .result (.concrete (.int 1))

/-- Defines `g`, `f` that applies it, and an axiom over a function that has no definition. -/
def calleeFirst : Computation :=
  .function "g" .int one fun _ => .function "f" .int (call "g" .int) fun _ =>
    .constraint "c" (call "p" .bool) fun _ => one

/-- Defines `outer`, whose computation defines and applies `inner`. -/
def localCallee : Computation :=
  .function "outer" .int (.function "inner" .int one fun _ => call "inner" .int) fun _ => one

/-- Defines `f`, which applies `g`, and then `g`. -/
def callerFirst : Computation :=
  .function "f" .int (call "g" .int) fun _ => .function "g" .int one fun _ => one

theorem calleeFirst_uses : calleeFirst.Uses (·.writesRegistry = false) :=
  ⟨trivial, fun _ => ⟨call_uses _ _, fun _ => ⟨call_uses _ _, fun _ => trivial⟩⟩⟩

theorem not_calleeFirst_nests (f : String) : ¬calleeFirst.Nests f := by
  have hcall (g : String) (k : Kind) : ¬(call g k).Lowers f := by
    rintro ⟨_ | _ | _, h⟩ <;> exact h
  rintro (h | ⟨_, h | ⟨_, h | ⟨_, h⟩⟩⟩)
  · exact h
  · exact hcall _ _ h
  · exact hcall _ _ h.lowers
  · exact h

end Sessions

variable (c)

/-- Definitions and axioms apply functions that the session declares or defines, but for those that
a named function's computation defined for itself. -/
theorem declarations_closed (hc : c.Uses (·.writesRegistry = false)) :
    (∀ d ∈ (c.session config).definitions, (∃ t, d.Spells t) ∧
      ∀ f ∈ d.applied, (c.session config).Emits f ∨ c.Nests f) ∧
    ∀ a ∈ (c.session config).axioms, ∃ (t : ValidTrace) (label : String),
      t.NamesFree ∧ t.constraintText label = .ok a ∧
        ∀ f, t.Applies f → (c.session config).Emits f := by
  obtain ⟨ho, hlevel⟩ := session_orderly config hc
  refine ⟨fun d hd => ?_, fun a ha => ?_⟩
  · obtain ⟨i, hi⟩ := List.getElem?_of_mem hd
    obtain ⟨hspells, happlied⟩ := ho.definitions i d hi
    refine ⟨hspells, fun f hf => ?_⟩
    rcases happlied f hf with rfl | ⟨e, he, rfl⟩ | hun | hnested
    · exact .inl (Workspace.Knows.emits (.inr ⟨d, hd, rfl⟩))
    · exact .inl (Workspace.Knows.emits (.inr ⟨e, List.mem_of_mem_take he, rfl⟩))
    · exact .inl (Workspace.Knows.emits (.inl hun))
    · exact .inr hnested
  · obtain ⟨t, label, hfree, ht, hknows⟩ := ho.axioms hlevel a ha
    exact ⟨t, label, hfree, ht, fun f hf => (hknows f hf).emits⟩

/-- Where no named function's computation defines another, all is declared. -/
theorem declarations_closed_calleeFirst :
    (calleeFirst.session {}).axioms.length = 1 ∧
      (calleeFirst.session {}).definitions.map (·.applied) = [[], ["g"]] ∧
      ∀ d ∈ (calleeFirst.session {}).definitions, ∀ f ∈ d.applied,
        (calleeFirst.session {}).Emits f := by
  refine ⟨by decide +kernel, by decide +kernel, fun d hd f hf => ?_⟩
  have hclosed := declarations_closed calleeFirst {} calleeFirst_uses
  exact ((hclosed.1 d hd).2 f hf).resolve_right (not_calleeFirst_nests f)

/-- `inner` is applied, and neither declared nor defined. -/
theorem declarations_not_closed : ¬∀ d ∈ (localCallee.session {}).definitions, ∀ f ∈ d.applied,
    (localCallee.session {}).Emits f := by
  have happlied : (localCallee.session {}).definitions.map
      (fun d => (d.name, d.applied)) = [("outer", ["inner"])] := by decide +kernel
  have hunknown : (localCallee.session {}).uninterpreted.find? "inner" = none := by decide +kernel
  obtain ⟨d, hdefs, hd⟩ := List.map_eq_singleton_iff.1 happlied
  obtain ⟨hname, hinner⟩ := Prod.mk.inj hd
  intro h
  rcases h d (hdefs ▸ List.mem_singleton_self d) "inner" (hinner ▸ List.mem_singleton_self _) with
    ⟨sig, hsig, -⟩ | ⟨e, he, heinner, -⟩
  · rw [hunknown] at hsig
    cases hsig
  · rw [hdefs, List.mem_singleton] at he
    subst he
    rw [hname] at heinner
    exact absurd heinner (by decide)

/-- Definitions come in the order of their registration. What one of them applies stands before it,
unless it was applied first and defined later, or a named function's computation defined it for
itself. -/
theorem declarations_ordered (hc : c.Uses (·.writesRegistry = false)) :
    ((c.session config).definitions.map (·.name)).Nodup ∧
    (c.session config).declarations = (c.session config).preamble ++
      (c.session config).definitions.map (·.render) ++ (c.session config).axioms ∧
    ∀ i d, (c.session config).definitions[i]? = some d → ∀ f ∈ d.applied,
      (f = d.name ∧ d.recursive = true) ∨
      (∃ e ∈ (c.session config).definitions.take i, e.name = f) ∨
      (∃ sig, (c.session config).uninterpreted.find? f = some sig ∧
        sig.declare f ∈ (c.session config).preamble) ∨
      ((c.session config).IsUninterpreted f ∧
        ∃ e ∈ (c.session config).definitions.drop (i + 1), e.name = f) ∨
      c.Nests f := by
  obtain ⟨ho, -⟩ := session_orderly config hc
  refine ⟨ho.nodup, Workspace.declarations_eq _, fun i d hi f hf => ?_⟩
  obtain ⟨⟨t, hspells⟩, happlied⟩ := ho.definitions i d hi
  by_cases hname : f = d.name
  · subst hname
    exact .inl ⟨rfl, Declaration.recursive_of_mem_applied hspells hf⟩
  rcases happlied f hf with h | hearlier | hun | hnested
  · exact (hname h).elim
  · exact .inr (.inl hearlier)
  · by_cases hdef : (c.session config).Defines f
    · -- the definition of `f` is not this one, so it is an earlier or a later one
      obtain ⟨e, he, hef⟩ := hdef
      rw [← List.take_append_drop i (c.session config).definitions, List.mem_append] at he
      rcases he with he | he
      · exact .inr (.inl ⟨e, he, hef⟩)
      · rw [List.drop_eq_getElem?_toList_append, hi] at he
        rcases List.mem_cons.1 he with rfl | he
        · exact (hname hef.symm).elim
        · exact .inr (.inr (.inr (.inl ⟨hun, e, he, hef⟩)))
    · obtain ⟨sig, hsig⟩ := Option.isSome_iff_exists.1 hun
      exact .inr (.inr (.inl ⟨sig, hsig, Workspace.declare_mem_preamble hsig hdef⟩))
  · exact .inr (.inr (.inr (.inr hnested)))

/-- `f` finds `g` before itself. -/
theorem declarations_ordered_calleeFirst :
    (calleeFirst.session {}).definitions.map (·.name) = ["g", "f"] ∧
      ∀ d, (calleeFirst.session {}).definitions[1]? = some d → ∀ f ∈ d.applied,
        (f = d.name ∧ d.recursive = true) ∨
        (∃ e ∈ (calleeFirst.session {}).definitions.take 1, e.name = f) ∨
        ∃ sig, (calleeFirst.session {}).uninterpreted.find? f = some sig ∧
          sig.declare f ∈ (calleeFirst.session {}).preamble := by
  have hlength : (calleeFirst.session {}).definitions.length = 2 := by decide +kernel
  refine ⟨by decide +kernel, fun d hd f hf => ?_⟩
  have hordered := declarations_ordered calleeFirst {} calleeFirst_uses
  rcases hordered.2.2 1 d hd f hf with h | h | h | ⟨-, e, he, -⟩ | h
  · exact .inl h
  · exact .inr (.inl h)
  · exact .inr (.inr h)
  · rw [List.drop_of_length_le (Nat.le_of_eq hlength)] at he
    cases he
  · exact (not_calleeFirst_nests f h).elim

/-- `g` comes after `f`, which applies it. -/
theorem declarations_not_ordered : ¬∀ (i j : Nat) (d e : Declaration),
    (callerFirst.session {}).definitions[i]? = some d →
    (callerFirst.session {}).definitions[j]? = some e →
    i ≠ j → e.name ∈ d.applied → j < i := by
  have happlied : (callerFirst.session {}).definitions.map
      (fun d => (d.name, d.applied)) = [("f", ["g"]), ("g", [])] := by decide +kernel
  obtain ⟨d, rest, hdefs, hd, hrest⟩ := List.map_eq_cons_iff.1 happlied
  obtain ⟨e, rfl, he⟩ := List.map_eq_singleton_iff.1 hrest
  obtain ⟨-, hcalls⟩ := Prod.mk.inj hd
  obtain ⟨hname, -⟩ := Prod.mk.inj he
  rw [hdefs]
  intro h
  have hmem : e.name ∈ d.applied := by
    rw [hcalls, hname]
    exact List.mem_singleton_self _
  exact absurd (h 0 1 d e rfl rfl (by decide) hmem) (by decide)

end Computation

end SmtLowering
