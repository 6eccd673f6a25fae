import Codemod.Proofs.Destructure.Verdicts

/-!
# New names capture nothing

The planner decides function by function on the table of the unchanged text,
while the names it asks for are declared in many functions at once, nested in
one another.  This module declares all of them in the table and shows that
every use of a name still finds the scope it found before, and that every
access that became a name finds the scope that the verdict on it promised.

Three checks work together.  A name is only injected where nothing around the
access declares it, so no declaration further out is hidden from anyone inside
the function; it is not injected where a use of it resolves to nothing; and
functions without braces, which the search for an owner passes, get no names.
-/

namespace Codemod.Destructure

open ScopeTable

variable {setting : Setting}

/-- The names that the planner asks for, with the scopes that are to bind them. -/
def injections (setting : Setting) : List (ScopeId × String) :=
  setting.table.functions.flatMap fun function =>
    (injectedNames (judgements setting (candidates setting) function)).map
      fun name => (function.scope, name)

variable {scope : ScopeId} {name : String}

theorem mem_injections_iff : (scope, name) ∈ injections setting ↔
      ∃ function judgement, Judged setting function judgement ∧
        judgement.verdict = .injected ∧ function.scope = scope ∧
        judgement.name = name := by
  simp only [injections, injectedNames, List.mem_flatMap, List.mem_map,
    Text.mem_nameSet, List.mem_filter, beq_iff_eq, Prod.mk.injEq]
  constructor
  · rintro ⟨function, member, _, ⟨judgement, ⟨judged, injected⟩, rfl⟩, rfl, rfl⟩
    exact ⟨function, judgement, ⟨member, judged⟩, injected, rfl, rfl⟩
  · rintro ⟨function, judgement, judged, injected, rfl, rfl⟩
    exact ⟨function, judged.member, judgement.name,
      ⟨judgement, ⟨judged.judged, injected⟩, rfl⟩, rfl, rfl⟩

theorem injections_inside (wellFormed : setting.table.WellFormed)
    {entry : ScopeId × String} (member : entry ∈ injections setting) :
    entry.1 < setting.table.scopes.length := by
  obtain ⟨function, _, judged, _, scope, _⟩ := mem_injections_iff.1 member
  exact scope ▸ wellFormed.function_lt judged.member

/-! ## What an injected name can rely on -/

/-- A function that binds a new name is in braces. -/
theorem inBraces_of_mem_injections (wellFormed : setting.table.WellFormed)
    (member : (scope, name) ∈ injections setting) :
    ∃ function ∈ setting.table.functions,
      function.scope = scope ∧ function.hasExpressionBody = false := by
  obtain ⟨function, judgement, judged, _, own, _⟩ := mem_injections_iff.1 member
  obtain ⟨_, _, owner, _⟩ := judged.candidate wellFormed
  exact ⟨function, judged.member, own, owner.inBraces⟩

/-- Nothing around a scope that binds a new name declares the name. -/
theorem unresolved_of_mem_injections (wellFormed : setting.table.WellFormed)
    (member : (scope, name) ∈ injections setting) :
    setting.table.declaringScope? scope name = none := by
  obtain ⟨function, judgement, judged, injected, rfl, rfl⟩ := mem_injections_iff.1 member
  obtain ⟨_, _, owner, isVerdict⟩ := judged.candidate wellFormed
  rw [isVerdict, verdict_eq_injected_iff] at injected
  have unresolved := resolve_eq_none_iff.1 injected.2.2.2.1
  rw [declaringScope?_eq_none_iff]
  intro ancestor isAround
  exact unresolved ancestor (wellFormed.mem_ancestors_trans owner.around isAround)

/-- Every use of a new name within the function that binds it resolved before. -/
theorem resolved_of_mem_injections (wellFormed : setting.table.WellFormed) {reference : Reference}
    (member : (scope, reference.name) ∈ injections setting)
    (isReference : reference ∈ setting.table.references)
    (within : scope ∈ setting.table.ancestors reference.scope) :
    setting.table.declaringScope? reference.scope reference.name ≠ none := by
  obtain ⟨function, judgement, judged, injected, rfl, named⟩ := mem_injections_iff.1 member
  obtain ⟨_, _, _, isVerdict⟩ := judged.candidate wellFormed
  rw [isVerdict, verdict_eq_injected_iff] at injected
  have notFree := (injectionBlocker?_eq_none_iff.1 injected.2.2.2.2).1
  intro unresolved
  have isFree : reference ∈ setting.table.unresolvedReferences := by
    rw [declaringScope?, Option.map_eq_none_iff] at unresolved
    simp [unresolvedReferences, isReference, isDefined, unresolved]
  rw [readsFree, List.any_eq_false] at notFree
  exact notFree reference isFree (by simp [named, within])

/-! ## Resolution after the declarations -/

section Resolution

variable {after : ScopeTable}

section

variable (wellFormed : setting.table.WellFormed)
    (adds : setting.table.Adds (injections setting) after)
include wellFormed adds

/-- What resolves before resolves to the same scope after. -/
theorem declaringScope?_of_resolved {id scope : ScopeId} {name : String}
    (resolved : setting.table.declaringScope? id name = some scope) :
    after.declaringScope? id name = some scope := by
  rw [← resolved]
  apply adds.declaringScope?_eq wellFormed
  · intro added _ member
    exact unresolved_of_mem_injections wellFormed member
  · intro unresolved
    rw [unresolved] at resolved
    cases resolved

/-- A recorded use of a name is not captured. -/
theorem declaringScope?_of_reference {reference : Reference}
    (isReference : reference ∈ setting.table.references) :
    after.declaringScope? reference.scope reference.name =
      setting.table.declaringScope? reference.scope reference.name := by
  apply adds.declaringScope?_eq wellFormed
  · intro added _ member
    exact unresolved_of_mem_injections wellFormed member
  · intro unresolved added within member
    exact resolved_of_mem_injections wellFormed member isReference within unresolved

/-- An access that gets a new name finds it in its owner. -/
theorem declaringScope?_of_injected {function : FunctionRecord} {judgement : Judgement}
    (judged : Judged setting function judgement) (injected : judgement.verdict = .injected) :
    after.declaringScope? judgement.access.scope judgement.name = some function.scope := by
  obtain ⟨_, _, owner, isVerdict⟩ := judged.candidate wellFormed
  have own : (function.scope, judgement.name) ∈ injections setting :=
    mem_injections_iff.2 ⟨function, judgement, judged, injected, rfl, rfl⟩
  rw [isVerdict, verdict_eq_injected_iff] at injected
  have unresolved := resolve_eq_none_iff.1 injected.2.2.2.1
  obtain ⟨inside, split, larger⟩ := wellFormed.ancestors_split owner.around
  obtain ⟨around, ownWay⟩ := wellFormed.ancestors_head (wellFormed.function_lt judged.member)
  rw [declaringScope?_eq_find?, adds.ancestors, split, List.find?_append]
  -- No function inside the owner binds the name: the owner is the innermost
  -- function in braces.
  have passed : inside.find? (after.declares judgement.name) = none := by
    rw [List.find?_eq_none]
    intro between isBetween
    have member : between ∈ setting.table.ancestors judgement.access.scope := by
      rw [split]
      exact List.mem_append_left _ isBetween
    rw [adds.declares, unresolved between member, Bool.false_or]
    simp only [List.contains_iff_mem]
    intro added
    obtain ⟨other, isOther, otherScope, inBraces⟩ := inBraces_of_mem_injections wellFormed added
    subst otherScope
    have outer := owner.mem_ancestors_of_inBraces wellFormed isOther inBraces member
    exact absurd (larger other.scope isBetween)
      (Nat.not_lt_of_le (wellFormed.le_of_mem_ancestors outer).1)
  rw [passed, ownWay, Option.none_or, List.find?_cons]
  simp [adds.declares, own]

end

end Resolution

/--
Declare every name that the planner asks for, in every function it asks for it,
at once.  Each recorded use of a name then resolves to the scope it resolved to
before, or to none as before; each access that needed a new name finds it in
the function that owns the access; and each access that reuses a binding still
finds the scope whose binding it reuses.
-/
theorem injected_names_capture_nothing (program : Program)
    (options : TransformOptions) (site : ScopeId → String → Site) :
    let setting := Setting.ofProgram program options
    let after := setting.table.declareEach site (injections setting)
    (∀ reference ∈ setting.table.references,
      after.declaringScope? reference.scope reference.name =
        setting.table.declaringScope? reference.scope reference.name) ∧
    ∀ function judgement, Judged setting function judgement →
      (judgement.verdict = .injected →
        after.declaringScope? judgement.access.scope judgement.name =
          some function.scope) ∧
      ∀ scope, judgement.verdict = .reused scope →
        setting.table.declaringScope? judgement.access.scope judgement.name =
            some scope ∧
          after.declaringScope? judgement.access.scope judgement.name =
            some scope := by
  intro setting after
  have wellFormed : setting.table.WellFormed := wellFormed_ofProgram program options
  have adds : setting.table.Adds (injections setting) after :=
    adds_declareEach site fun _ => injections_inside wellFormed
  refine ⟨fun reference isReference =>
    declaringScope?_of_reference wellFormed adds isReference, ?_⟩
  intro function judgement judged
  refine ⟨declaringScope?_of_injected wellFormed adds judged, ?_⟩
  intro scope reused
  obtain ⟨_, _, _, isVerdict⟩ := judged.candidate wellFormed
  rw [isVerdict, verdict_eq_reused_iff] at reused
  obtain ⟨_, _, _, resolution, resolved, _, rfl⟩ := reused
  have before := (resolve_eq_some_iff.1 resolved).1
  exact ⟨before, declaringScope?_of_resolved wellFormed adds before⟩

/-- A component method whose arrow function reads three properties. -/
def nestedReads : Option Program :=
  parseProgram .plain
    "function f() { const { a } = this.props;
      const g = (y) => { return this.props.a + this.props.z + y; };
      return g(this.props.w + b); }".toList

/--
In the sample the function and its arrow each get a name of their own, and the
arrow's access finds the arrow's.
-/
theorem injected_names_capture_nothing_in_nestedReads :
    ∃ program, nestedReads = some program ∧
      injections (.ofProgram program .standard) = [(1, "w"), (2, "z")] ∧
      ∃ function judgement,
        Judged (.ofProgram program .standard) function judgement ∧
        judgement.verdict = .injected ∧ judgement.name = "z" ∧
        ∀ site, ((Setting.ofProgram program .standard).table.declareEach site
          (injections (.ofProgram program .standard))).declaringScope?
            judgement.access.scope judgement.name = some 2 := by
  obtain ⟨program, parsed, asked, function, member, judgement, judged, injected, named, scope⟩ :
      ∃ program ∈ nestedReads, injections (.ofProgram program .standard) = [(1, "w"), (2, "z")] ∧
        ∃ function ∈ (Setting.ofProgram program .standard).table.functions,
          ∃ judgement ∈ judgements (.ofProgram program .standard)
            (candidates (.ofProgram program .standard)) function,
            judgement.verdict = .injected ∧ judgement.name = "z" ∧
              function.scope = 2 := by
    decide +kernel
  refine ⟨program, parsed, asked, function, judgement, ⟨member, judged⟩,
    injected, named, ?_⟩
  intro site
  rw [((injected_names_capture_nothing program .standard site).2 function
    judgement ⟨member, judged⟩).1 injected, scope]

end Codemod.Destructure
