import Codemod.Proofs.Scope.Formation

/-!
# Nearest scopes

Names and `this` are looked up alike: from a scope outwards, up to the first
scope that answers.  `IsNearest` says which scope that is by the order of the
scopes alone (`find?_ancestors_eq_some_iff`), and a lookup from a scope inside
another one finds the same as from there, or something in between
(`find?_ancestors_cases`).  Both kinds of lookup follow from these two facts.
-/

namespace Codemod.ScopeTable

variable {table : ScopeTable} {id inner middle outer found : ScopeId} {test : ScopeId → Bool}
  {name : String}

/-! ## The order of the scopes -/

section

variable (wellFormed : table.WellFormed)
include wellFormed

/-- A scope lies in itself exactly if it exists. -/
theorem WellFormed.isWithin_self_iff : table.isWithin id id = true ↔ id < table.scopes.length := by
  rw [isWithin_iff]
  exact ⟨fun member => (wellFormed.le_of_mem_ancestors member).2, wellFormed.mem_ancestors_self⟩

theorem WellFormed.isWithin_antisymm (first : table.isWithin inner outer = true)
    (second : table.isWithin outer inner = true) :
    inner = outer := by
  rw [isWithin_iff] at first second
  exact Nat.le_antisymm (wellFormed.le_of_mem_ancestors second).1
    (wellFormed.le_of_mem_ancestors first).1

theorem WellFormed.isWithin_trans (first : table.isWithin inner middle = true)
    (second : table.isWithin middle outer = true) :
    table.isWithin inner outer = true := by
  rw [isWithin_iff] at first second ⊢
  exact wellFormed.mem_ancestors_trans first second

/-! ## Lookups -/

/-- Of the scopes around a scope that pass a test, the one that lies in all the others. -/
structure IsNearest (table : ScopeTable) (test : ScopeId → Bool) (id found : ScopeId) : Prop where
  around : table.isWithin id found = true
  passes : test found = true
  inside : ∀ other, table.isWithin id other = true → test other = true →
    table.isWithin found other = true

theorem IsNearest.unique {other : ScopeId} (first : table.IsNearest test id found)
    (second : table.IsNearest test id other) :
    found = other :=
  wellFormed.isWithin_antisymm (first.inside other second.around second.passes)
    (second.inside found first.around first.passes)

/-- What the search outwards finds is the nearest scope that passes. -/
theorem WellFormed.isNearest_of_find? (isFound : (table.ancestors id).find? test = some found) :
    table.IsNearest test id found := by
  have around := List.mem_of_find?_eq_some isFound
  refine ⟨isWithin_iff.2 around, List.find?_some isFound, fun other isAround passes => ?_⟩
  rw [isWithin_iff] at isAround ⊢
  have notInner := wellFormed.le_of_find?_ancestors isFound isAround passes
  rcases wellFormed.ancestors_linear isAround around with isOuter | isInner
  · exact isOuter
  · have same := Nat.le_antisymm notInner (wellFormed.le_of_mem_ancestors isInner).1
    exact same ▸ isInner

theorem WellFormed.find?_ancestors_eq_some_iff :
    (table.ancestors id).find? test = some found ↔ table.IsNearest test id found := by
  refine ⟨wellFormed.isNearest_of_find?, fun nearest => ?_⟩
  cases isFound : (table.ancestors id).find? test with
  | none =>
    have fails := List.find?_eq_none.1 isFound found (isWithin_iff.1 nearest.around)
    exact absurd nearest.passes fails
  | some other =>
    rw [nearest.unique wellFormed (wellFormed.isNearest_of_find? isFound)]

/--
The search from a scope inside another one goes on as the search from there,
unless it ends before it comes there.
-/
theorem WellFormed.find?_ancestors_cases (test : ScopeId → Bool)
    (within : table.isWithin inner outer = true) :
    (table.ancestors inner).find? test = (table.ancestors outer).find? test ∨
      ∃ found, (table.ancestors inner).find? test = some found ∧
        table.isWithin inner found = true ∧ table.isWithin found outer = true ∧
        found ≠ outer := by
  rw [isWithin_iff] at within
  obtain ⟨inside, way, larger⟩ := wellFormed.ancestors_split within
  rw [way, List.find?_append]
  cases isFound : inside.find? test with
  | none => exact Or.inl (Option.none_or ..)
  | some found =>
    have isInside := List.mem_of_find?_eq_some isFound
    have isAround : found ∈ table.ancestors inner := way ▸ List.mem_append_left _ isInside
    have isLarger := larger found isInside
    refine Or.inr ⟨found, rfl, isWithin_iff.2 isAround, isWithin_iff.2 ?_, Nat.ne_of_gt isLarger⟩
    rcases wellFormed.ancestors_linear within isAround with isOuter | isInner
    · exact isOuter
    · have smaller := (wellFormed.le_of_mem_ancestors isInner).1
      exact absurd isLarger (Nat.not_lt_of_le smaller)

/-! ## Names -/

omit wellFormed in
/-- A name resolves to the scope that declares it, with the places that declare it there. -/
theorem resolve_eq_map (table : ScopeTable) (id : ScopeId) (name : String) : table.resolve id name =
      ((table.ancestors id).find? (table.declares name)).map fun scope =>
        ⟨scope, table.sitesIn scope name⟩ := by
  rw [← declaringScope?_eq_find?]
  cases resolved : table.resolve id name with
  | none => rw [declaringScope?, resolved]; rfl
  | some resolution =>
    obtain ⟨isScope, areSites⟩ := resolve_eq_some_iff.1 resolved
    rw [isScope, Option.map_some, ← areSites]

theorem WellFormed.resolve_eq_some_iff_isNearest {resolution : Resolution} :
    table.resolve id name = some resolution ↔
      table.IsNearest (table.declares name) id resolution.scope ∧
        resolution.sites = table.sitesIn resolution.scope name := by
  rw [resolve_eq_some_iff, declaringScope?_eq_find?, wellFormed.find?_ancestors_eq_some_iff]

/-- A name means the same inside a scope as at it, unless it is declared in between. -/
theorem WellFormed.resolve_cases (name : String) (within : table.isWithin inner outer = true) :
    table.resolve inner name = table.resolve outer name ∨
      ∃ resolution, table.resolve inner name = some resolution ∧
        table.isWithin inner resolution.scope = true ∧
        table.isWithin resolution.scope outer = true ∧ resolution.scope ≠ outer := by
  rw [resolve_eq_map, resolve_eq_map]
  rcases wellFormed.find?_ancestors_cases (table.declares name) within with
    same | ⟨found, isFound, around, inside, different⟩
  · rw [same]
    exact Or.inl rfl
  · rw [isFound]
    exact Or.inr ⟨_, rfl, around, inside, different⟩

/-! ## The meaning of `this` -/

/-- Whether `this` has a meaning of its own in a scope of the table. -/
def bindsThis (table : ScopeTable) (id : ScopeId) : Bool :=
  (table.get? id).any fun scope => scope.kind.bindsThis

omit wellFormed in
theorem thisScope_eq (table : ScopeTable) (id : ScopeId) :
    table.thisScope id = ((table.ancestors id).find? table.bindsThis).getD root := rfl

theorem WellFormed.thisScope_cases (within : table.isWithin inner outer = true) :
    table.thisScope inner = table.thisScope outer ∨
      table.isWithin inner (table.thisScope inner) = true ∧
        table.isWithin (table.thisScope inner) outer = true ∧
        table.thisScope inner ≠ outer := by
  rw [thisScope_eq, thisScope_eq]
  rcases wellFormed.find?_ancestors_cases table.bindsThis within with same | ⟨found, isFound, rest⟩
  · rw [same]
    exact Or.inl rfl
  · rw [isFound]
    exact Or.inr rest

/-- A scope that has its own `this` sees no other one. -/
theorem WellFormed.thisScope_of_bindsThis (binds : table.bindsThis id = true) :
    table.thisScope id = id := by
  obtain ⟨scope, found, _⟩ := (Option.any_eq_true ..).1 binds
  obtain ⟨around, way⟩ := wellFormed.ancestors_head (lt_length_of_get? found)
  rw [thisScope_eq, way, List.find?_cons_of_pos binds]
  rfl

theorem WellFormed.thisScope_root : table.thisScope root = root := by
  rw [thisScope_eq]
  cases isFound : (table.ancestors root).find? table.bindsThis with
  | none => rfl
  | some found =>
    have around := List.mem_of_find?_eq_some isFound
    exact Nat.le_zero.1 (wellFormed.le_of_mem_ancestors around).1

theorem WellFormed.thisScope_thisScope (id : ScopeId) :
    table.thisScope (table.thisScope id) = table.thisScope id := by
  cases isFound : (table.ancestors id).find? table.bindsThis with
  | none =>
    have outermost : table.thisScope id = root := by rw [thisScope_eq, isFound]; rfl
    rw [outermost, wellFormed.thisScope_root]
  | some found =>
    have isThis : table.thisScope id = found := by rw [thisScope_eq, isFound]; rfl
    rw [isThis]
    exact wellFormed.thisScope_of_bindsThis (List.find?_some isFound)

end

/-- The text has a `this`, so every scope of a program sees one. -/
theorem isNearest_thisScope {tree : Node} (isText : tree.kind = .program)
    (inside : id < (ofProgram tree).scopes.length) :
    (ofProgram tree).IsNearest (ofProgram tree).bindsThis id ((ofProgram tree).thisScope id) := by
  have wellFormed := wellFormed_ofProgram tree
  obtain ⟨survey, isTable, rooted⟩ := rooted_ofProgram isText
  rw [← isTable] at wellFormed inside ⊢
  have reaches := wellFormed.getLast?_ancestors rooted.inner inside
  obtain ⟨scope, found, isKind, _⟩ := rooted.text
  have binds : survey.table.bindsThis root = true := by
    rw [bindsThis, found, Option.any_some, isKind]
    rfl
  cases isFound : (survey.table.ancestors id).find? survey.table.bindsThis with
  | none => exact absurd binds (List.find?_eq_none.1 isFound root (List.mem_of_getLast? reaches))
  | some found =>
    rw [thisScope_eq, isFound]
    exact wellFormed.isNearest_of_find? isFound

/--
In the table of a program, lying in is a partial order of the scopes.  A name
resolves to the nearest scope around that declares it, with all the places that
do, and to nothing exactly if none declares it; `this` is that of the nearest
scope around that has its own.  Inside a scope, a name and `this` mean the same
as at the scope, or what they mean there lies strictly inside it.
-/
theorem names_resolve_to_nearest_scopes {tree : Node} (isText : tree.kind = .program) :
    let table := ofProgram tree
    ((∀ id, table.isWithin id id = true ↔ id < table.scopes.length) ∧
      (∀ inner outer, table.isWithin inner outer = true → table.isWithin outer inner = true →
        inner = outer) ∧
      ∀ inner middle outer, table.isWithin inner middle = true →
        table.isWithin middle outer = true → table.isWithin inner outer = true) ∧
    (∀ id name,
      (∀ resolution, table.resolve id name = some resolution ↔
        table.IsNearest (table.declares name) id resolution.scope ∧
          resolution.sites = table.sitesIn resolution.scope name) ∧
      (table.resolve id name = none ↔
        ∀ outer, table.isWithin id outer = true → table.declares name outer = false)) ∧
    (∀ id < table.scopes.length, table.IsNearest table.bindsThis id (table.thisScope id)) ∧
    (∀ id, table.thisScope (table.thisScope id) = table.thisScope id) ∧
    ∀ inner outer, table.isWithin inner outer = true →
      (∀ name, table.resolve inner name = table.resolve outer name ∨
        ∃ resolution, table.resolve inner name = some resolution ∧
          table.isWithin inner resolution.scope = true ∧
          table.isWithin resolution.scope outer = true ∧ resolution.scope ≠ outer) ∧
      (table.thisScope inner = table.thisScope outer ∨
        table.isWithin inner (table.thisScope inner) = true ∧
          table.isWithin (table.thisScope inner) outer = true ∧
          table.thisScope inner ≠ outer) := by
  have wellFormed := wellFormed_ofProgram tree
  refine ⟨⟨fun id => wellFormed.isWithin_self_iff, fun inner outer => wellFormed.isWithin_antisymm,
    fun inner middle outer => wellFormed.isWithin_trans⟩, fun id name => ⟨fun resolution =>
      wellFormed.resolve_eq_some_iff_isNearest, ?_⟩, fun id inside =>
        isNearest_thisScope isText inside, wellFormed.thisScope_thisScope,
    fun inner outer within => ⟨fun name => wellFormed.resolve_cases name within,
      wellFormed.thisScope_cases within⟩⟩
  simp only [resolve_eq_none_iff, isWithin_iff]

/-- A name of the text and of a method, and an arrow function in the method. -/
def shadowedName : Option Program :=
  parseProgram .plain
    "const a = 1, b = 2; class C { m(a) { return () => { this.x = a + b; }; } }".toList

/-- In the arrow function, `a` and `this` are those of the method, and `b` is that of the text. -/
theorem names_resolve_to_nearest_scopes_in_shadowedName :
    ∃ program, shadowedName = some program ∧ program.root.kind = .program ∧
      let table := ofProgram program.root
      table.IsNearest (table.declares "a") 3 2 ∧ table.IsNearest (table.declares "b") 3 0 ∧
        table.IsNearest table.bindsThis 3 2 ∧ table.thisScope (table.thisScope 3) = 2 := by
  obtain ⟨program, parsed, ⟨first, second⟩, isThis, inside⟩ : ∃ program ∈ shadowedName,
      (((ofProgram program.root).resolve 3 "a").map Resolution.scope = some 2 ∧
        ((ofProgram program.root).resolve 3 "b").map Resolution.scope = some 0) ∧
      (ofProgram program.root).thisScope 3 = 2 ∧
      3 < (ofProgram program.root).scopes.length := by
    decide +kernel
  have isText := kind_of_parseProgram parsed
  obtain ⟨_, resolves, nearest, idempotent, _⟩ := names_resolve_to_nearest_scopes isText
  obtain ⟨resolved, isResolved, isFirst⟩ := Option.map_eq_some_iff.1 first
  obtain ⟨other, isOther, isSecond⟩ := Option.map_eq_some_iff.1 second
  refine ⟨program, parsed, isText, ?_, ?_, ?_, ?_⟩
  · exact isFirst ▸ (((resolves 3 "a").1 resolved).1 isResolved).1
  · exact isSecond ▸ (((resolves 3 "b").1 other).1 isOther).1
  · exact isThis ▸ nearest 3 inside
  · exact (idempotent 3).trans isThis

end Codemod.ScopeTable
