import Codemod.Proofs.Scope.Ancestors

/-!
# Resolution and added declarations

A name resolves to the first scope on the way outwards that declares it.  An
added declaration of the name can only matter on ways that pass its scope;
`Adds.declaringScope?_eq` says when it matters to none.
-/

namespace Codemod.ScopeTable

variable {table : ScopeTable}

/-- Whether a scope declares a name itself. -/
def declares (table : ScopeTable) (name : String) (id : ScopeId) : Bool :=
  !(table.sitesIn id name).isEmpty

/-- The scope that a name resolves to, if it resolves. -/
def declaringScope? (table : ScopeTable) (id : ScopeId) (name : String) :
    Option ScopeId :=
  (table.resolve id name).map Resolution.scope

theorem declaringScope?_eq_find? (id : ScopeId) (name : String) : table.declaringScope? id name =
      (table.ancestors id).find? (table.declares name) := by
  rw [declaringScope?, resolve]
  induction table.ancestors id with
  | nil => rfl
  | cons ancestor rest ih =>
    cases empty : (table.sitesIn ancestor name).isEmpty with
    | true =>
      simp only [List.findSome?_cons, List.find?_cons, declares, empty, if_true, Bool.not_true]
      exact ih
    | false =>
      simp only [List.findSome?_cons, List.find?_cons, declares, empty,
        Bool.false_eq_true, if_false, Bool.not_false, Option.map_some]

variable {id owner : ScopeId} {name : String}

theorem resolve_eq_some_iff {resolution : Resolution} : table.resolve id name = some resolution ↔
      table.declaringScope? id name = some resolution.scope ∧
        resolution.sites = table.sitesIn resolution.scope name := by
  rw [declaringScope?, resolve]
  induction table.ancestors id with
  | nil => simp
  | cons ancestor rest ih =>
    rw [List.findSome?_cons]
    cases empty : (table.sitesIn ancestor name).isEmpty with
    | true => simpa [empty] using ih
    | false =>
      obtain ⟨scope, sites⟩ := resolution
      simp only [empty, Bool.false_eq_true, if_false, Option.some.injEq,
        Resolution.mk.injEq, Option.map_some]
      constructor
      · rintro ⟨rfl, rfl⟩
        exact ⟨rfl, rfl⟩
      · rintro ⟨rfl, rfl⟩
        exact ⟨rfl, rfl⟩

theorem declaringScope?_eq_none_iff : table.declaringScope? id name = none ↔
      ∀ ancestor ∈ table.ancestors id, table.declares name ancestor = false := by
  simp [declaringScope?_eq_find?]

theorem resolve_eq_none_iff : table.resolve id name = none ↔
      ∀ ancestor ∈ table.ancestors id, table.declares name ancestor = false := by
  rw [← declaringScope?_eq_none_iff, declaringScope?, Option.map_eq_none_iff]

/-- A name resolves to a scope around its use that declares it. -/
theorem mem_ancestors_of_declaringScope? {scope : ScopeId}
    (resolved : table.declaringScope? id name = some scope) :
    scope ∈ table.ancestors id ∧ table.declares name scope = true := by
  rw [declaringScope?_eq_find?] at resolved
  exact ⟨List.mem_of_find?_eq_some resolved, List.find?_some resolved⟩

theorem WellFormed.mem_declarationsWithin_iff (wellFormed : table.WellFormed) {site : Site} :
    (id, site) ∈ table.declarationsWithin owner name ↔
      owner ∈ table.ancestors id ∧ site ∈ table.sitesIn id name := by
  simp only [declarationsWithin, List.mem_flatMap, List.mem_filter,
    List.mem_map, Prod.mk.injEq, isWithin_iff, sitesIn]
  constructor
  · rintro ⟨scope, ⟨member, within⟩, found, isSite, rfl, rfl⟩
    obtain ⟨index, isScope⟩ := List.getElem?_of_mem member
    have isFound : table.get? scope.id = some scope := by
      rw [wellFormed.id_eq isScope]
      exact isScope
    exact ⟨within, by simpa [isFound] using isSite⟩
  · rintro ⟨within, isSite⟩
    cases found : table.get? id with
    | none => simp [found] at isSite
    | some scope =>
      simp only [found] at isSite
      obtain rfl := wellFormed.id_eq found
      exact ⟨scope, ⟨List.mem_of_getElem? found, within⟩, site, isSite, rfl, rfl⟩

theorem WellFormed.declarationsWithin_isEmpty_iff (wellFormed : table.WellFormed) :
    (table.declarationsWithin owner name).isEmpty = true ↔
      ∀ id, owner ∈ table.ancestors id → table.declares name id = false := by
  rw [List.isEmpty_iff, List.eq_nil_iff_forall_not_mem]
  constructor
  · intro none_ id within
    rw [declares, Bool.not_eq_false', List.isEmpty_iff, List.eq_nil_iff_forall_not_mem]
    intro site isSite
    exact none_ (id, site) (wellFormed.mem_declarationsWithin_iff.2 ⟨within, isSite⟩)
  · rintro undeclared ⟨id, site⟩ member
    obtain ⟨within, isSite⟩ := wellFormed.mem_declarationsWithin_iff.1 member
    have empty := undeclared id within
    rw [declares, Bool.not_eq_false', List.isEmpty_iff] at empty
    rw [empty] at isSite
    cases isSite

theorem WellFormed.sitesIn_sublist (wellFormed : table.WellFormed)
    (within : owner ∈ table.ancestors id) (name : String) :
    ((table.sitesIn id name).map fun site => (id, site)).Sublist
      (table.declarationsWithin owner name) := by
  rw [sitesIn]
  cases found : table.get? id with
  | none => exact List.nil_sublist _
  | some scope =>
    obtain rfl := wellFormed.id_eq found
    have isKept : scope ∈ table.scopes.filter fun scope => table.isWithin scope.id owner :=
      List.mem_filter.2 ⟨List.mem_of_getElem? found, isWithin_iff.2 within⟩
    obtain ⟨before, after, split⟩ := List.append_of_mem isKept
    rw [declarationsWithin, split, List.flatMap_append, List.flatMap_cons]
    exact (List.sublist_append_left _ _).trans (List.sublist_append_right _ _)

/-- A name with a single declaration below a scope, in the scope itself, resolves to it there. -/
theorem WellFormed.resolve_eq_of_single (wellFormed : table.WellFormed) {site : Site}
    (single : table.declarationsWithin owner name = [(owner, site)])
    (within : owner ∈ table.ancestors id) :
    table.resolve id name = some ⟨owner, [site]⟩ := by
  have isOwn : (owner, site) ∈ table.declarationsWithin owner name := by
    rw [single]
    exact List.mem_cons_self
  obtain ⟨isSelf, isSite⟩ := wellFormed.mem_declarationsWithin_iff.1 isOwn
  have declares_ : table.declares name owner = true := by
    rw [declares, Bool.not_eq_true', List.isEmpty_eq_false_iff]
    exact List.ne_nil_of_mem isSite
  have isOnly : table.sitesIn owner name = [site] := by
    have few := (wellFormed.sitesIn_sublist isSelf name).length_le
    rw [single, List.length_map, List.length_singleton] at few
    obtain ⟨other, isOther⟩ := List.length_eq_one_iff.1
      (Nat.le_antisymm few (List.length_pos_of_mem isSite))
    rw [isOther] at isSite ⊢
    rw [List.mem_singleton.1 isSite]
  rw [resolve_eq_some_iff]
  refine ⟨?_, isOnly.symm⟩
  cases resolved : table.declaringScope? id name with
  | none =>
    rw [declaringScope?_eq_none_iff.1 resolved owner within] at declares_
    cases declares_
  | some found =>
    obtain ⟨isAround, isDeclared⟩ := mem_ancestors_of_declaringScope? resolved
    rw [declaringScope?_eq_find?] at resolved
    have notOuter := wellFormed.le_of_find?_ancestors resolved within declares_
    rcases wellFormed.ancestors_linear within isAround with isInner | isOuter
    · rw [declares, Bool.not_eq_true', List.isEmpty_eq_false_iff] at isDeclared
      obtain ⟨other, isOther⟩ := List.exists_mem_of_ne_nil _ isDeclared
      have isListed := wellFormed.mem_declarationsWithin_iff.2 ⟨isInner, isOther⟩
      rw [single, List.mem_singleton] at isListed
      exact congrArg (fun entry => some entry.1) isListed
    · rw [Nat.le_antisymm (wellFormed.le_of_mem_ancestors isOuter).1 notOuter]

/-! ## One more declaration -/

theorem get?_declare (id other : ScopeId) (name : String) (site : Site) :
    (table.declare id name site).get? other = (table.get? other).map fun scope =>
        if id = other then scope.declare name site else scope := by
  rw [get?, get?, declare, List.getElem?_modify]
  rfl

@[simp]
theorem length_declare (id : ScopeId) (name : String) (site : Site) :
    (table.declare id name site).scopes.length = table.scopes.length := by
  simp [declare]

@[simp]
theorem ancestors_declare (id : ScopeId) (name : String) (site : Site) (from_ : ScopeId) :
    (table.declare id name site).ancestors from_ = table.ancestors from_ := by
  apply ancestors_congr (length_declare id name site)
  intro other
  rw [get?_declare, Option.map_map]
  congr 1
  funext scope
  simp only [Function.comp_apply]
  split <;> rfl

theorem sites_declare (scope : Scope) (name other : String) (site : Site) :
    (scope.declare name site).sites other =
      scope.sites other ++ if name = other then [site] else [] := by
  by_cases same : name = other <;> simp [Scope.sites, Scope.declare, same]

theorem declares_declare (id other : ScopeId) (name wanted : String)
    (site : Site) (inside : id < table.scopes.length) :
    (table.declare id name site).declares wanted other =
      (table.declares wanted other || (id == other && name == wanted)) := by
  rw [declares, declares, sitesIn, sitesIn, get?_declare]
  by_cases here : id = other
  · subst other
    obtain ⟨scope, found⟩ := exists_get? inside
    simp only [found, Option.map_some, if_true, sites_declare]
    by_cases same : name = wanted <;> simp [same]
  · have apart : (id == other) = false := by simp [here]
    cases found : table.get? other with
    | none => simp [apart]
    | some scope => simp [here]

/-! ## Several declarations -/

/-- A table that declares more names in the scopes of another one. -/
structure Adds (table : ScopeTable) (entries : List (ScopeId × String))
    (after : ScopeTable) : Prop where
  ancestors : ∀ id, after.ancestors id = table.ancestors id
  declares : ∀ name id, after.declares name id =
    (table.declares name id || entries.contains (id, name))

/-- The table with one more declaration for each of the entries. -/
def declareEach (table : ScopeTable) (site : ScopeId → String → Site)
    (entries : List (ScopeId × String)) : ScopeTable :=
  entries.foldl (fun table entry =>
    table.declare entry.1 entry.2 (site entry.1 entry.2)) table

variable {entries : List (ScopeId × String)}

theorem adds_declareEach (site : ScopeId → String → Site)
    (inside : ∀ entry ∈ entries, entry.1 < table.scopes.length) :
    table.Adds entries (table.declareEach site entries) := by
  rw [declareEach]
  induction entries generalizing table with
  | nil => exact ⟨fun _ => rfl, by simp⟩
  | cons entry rest ih =>
    have restInside : ∀ other ∈ rest, other.1 <
        (table.declare entry.1 entry.2 (site entry.1 entry.2)).scopes.length := by
      intro other member
      rw [length_declare]
      exact inside other (List.mem_cons_of_mem _ member)
    have later := ih restInside
    constructor
    · intro id
      rw [List.foldl_cons, later.ancestors, ancestors_declare]
    · intro name id
      rw [List.foldl_cons, later.declares,
        declares_declare _ _ _ _ _ (inside entry List.mem_cons_self),
        Bool.or_assoc, List.contains_cons]
      congr 2
      by_cases sameScope : entry.1 = id <;>
        by_cases sameName : entry.2 = name <;> grind

/--
Added declarations leave the resolution of a name alone if no scope around a
scope that gets one declares the name already, and none of them is passed by
a use that resolves to nothing.
-/
theorem Adds.declaringScope?_eq {after : ScopeTable} (adds : table.Adds entries after)
    (wellFormed : table.WellFormed)
    (fresh : ∀ added ∈ table.ancestors id, (added, name) ∈ entries →
      table.declaringScope? added name = none)
    (free : table.declaringScope? id name = none →
      ∀ added ∈ table.ancestors id, (added, name) ∉ entries) :
    after.declaringScope? id name = table.declaringScope? id name := by
  cases resolved : table.declaringScope? id name with
  | none =>
    rw [declaringScope?_eq_none_iff, adds.ancestors]
    intro ancestor member
    rw [adds.declares, declaringScope?_eq_none_iff.1 resolved ancestor member]
    simpa using free resolved ancestor member
  | some scope =>
    have found := resolved
    rw [declaringScope?_eq_find?, List.find?_eq_some_iff_append] at found
    obtain ⟨declared, before, outside, split, undeclared⟩ := found
    rw [declaringScope?_eq_find?, adds.ancestors, List.find?_eq_some_iff_append]
    refine ⟨by simp [adds.declares, declared], before, outside, split, ?_⟩
    intro nearer isNearer
    have nearerMember : nearer ∈ table.ancestors id := by
      rw [split]
      exact List.mem_append_left _ isNearer
    have scopeMember : scope ∈ table.ancestors id := by
      rw [split]
      simp
    have larger : scope < nearer := by
      have ordered := wellFormed.ancestors_decreasing id
      rw [split, List.pairwise_append] at ordered
      exact ordered.2.2 nearer isNearer scope List.mem_cons_self
    have around : scope ∈ table.ancestors nearer := by
      rcases wellFormed.ancestors_linear scopeMember nearerMember with
        outer | inner
      · exact outer
      · exact absurd (wellFormed.le_of_mem_ancestors inner).1 (Nat.not_le_of_lt larger)
    have notAdded : (nearer, name) ∉ entries := by
      intro added
      have unresolved := fresh nearer nearerMember added
      rw [declaringScope?_eq_none_iff] at unresolved
      rw [unresolved scope around] at declared
      cases declared
    have undeclaredHere := undeclared nearer isNearer
    rw [adds.declares]
    simp_all

end Codemod.ScopeTable
