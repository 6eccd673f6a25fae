import Codemod.Scope.Table

/-!
# The tree of scopes

Scopes are numbered in the order in which they open, so the scope around
another one always has the smaller number.  `WellFormed` states this for a
table, together with what ties functions to their scopes.  In a well-formed
table the way outwards from a scope does not depend on how much fuel `climb`
is given: it ends at a scope without a parent, and the way outwards from any
scope on it is the rest of it.
-/

namespace Codemod.ScopeTable

/-- What every table that was built from a trace satisfies. -/
structure WellFormed (table : ScopeTable) : Prop where
  /-- A scope knows its own number. -/
  id_eq : ∀ {id : ScopeId} {scope : Scope},
    table.get? id = some scope → scope.id = id
  /-- Scopes open after the scopes around them. -/
  parent_lt : ∀ {id parent : ScopeId} {scope : Scope},
    table.get? id = some scope → scope.parent = some parent → parent < id
  /-- The scope of a function exists. -/
  function_lt : ∀ {function : FunctionRecord},
    function ∈ table.functions → function.scope < table.scopes.length
  /-- Functions are listed in the order in which their scopes open. -/
  functions_increasing :
    table.functions.Pairwise fun first second => first.scope < second.scope
  /-- The last function comes first among the places by scopes. -/
  functionByScope_eq : table.functionByScope =
    (table.functions.zipIdx.map fun entry => (entry.1.scope, entry.2)).reverse

variable {id ancestor : ScopeId} {scope : Scope} {table : ScopeTable}

theorem get?_eq_none_iff : table.get? id = none ↔ table.scopes.length ≤ id := by
  simp [get?]

theorem lt_length_of_get? (found : table.get? id = some scope) : id < table.scopes.length := by
  apply Nat.lt_of_not_le
  intro outside
  rw [get?_eq_none_iff.2 outside] at found
  cases found

theorem exists_get? (inside : id < table.scopes.length) : ∃ scope, table.get? id = some scope :=
  ⟨table.scopes[id], by simp [get?, inside]⟩

/-! ## Climbing -/

theorem climb_of_none (absent : table.get? id = none) (fuel : Nat) : table.climb fuel id = [] := by
  cases fuel with
  | zero => rfl
  | succ fuel => simp [climb, absent]

/-- Fuel beyond the number of a scope changes nothing. -/
theorem WellFormed.climb_stable (wellFormed : table.WellFormed) {fuel : Nat} (enough : id < fuel) :
    table.climb fuel id = table.climb (id + 1) id := by
  induction id using Nat.strongRecOn generalizing fuel with
  | _ id ih =>
    cases fuel with
    | zero => exact absurd enough (Nat.not_lt_zero _)
    | succ fuel =>
      cases found : table.get? id with
      | none => rw [climb_of_none found, climb_of_none found]
      | some scope =>
        cases around : scope.parent with
        | none => simp [climb, found, around]
        | some parent =>
          have smaller : parent < id := wellFormed.parent_lt found around
          simp only [climb, found, around]
          have fueled : parent < fuel := Nat.lt_of_lt_of_le smaller (Nat.le_of_lt_succ enough)
          rw [ih parent smaller fueled, ih parent smaller smaller]

/-- The way outwards is read off the parents of the scopes alone. -/
theorem ancestors_congr {first second : ScopeTable}
    (length : first.scopes.length = second.scopes.length)
    (parents : ∀ id, (first.get? id).map Scope.parent =
      (second.get? id).map Scope.parent) (id : ScopeId) :
    first.ancestors id = second.ancestors id := by
  have climbs (fuel : Nat) (id : ScopeId) :
      first.climb fuel id = second.climb fuel id := by
    induction fuel generalizing id with
    | zero => rfl
    | succ fuel ih =>
      have parent := parents id
      rw [climb, climb]
      cases found : first.get? id with
      | none =>
        rw [found, Option.map_none, eq_comm, Option.map_eq_none_iff] at parent
        rw [parent]
      | some scope =>
        rw [found, Option.map_some, eq_comm, Option.map_eq_some_iff] at parent
        obtain ⟨other, otherFound, sameParent⟩ := parent
        simp only [otherFound, sameParent, ih]
  rw [ancestors, ancestors, climbs, length]

theorem ancestors_of_none (absent : table.get? id = none) : table.ancestors id = [] :=
  climb_of_none absent _

theorem ancestors_of_root (found : table.get? id = some scope) (around : scope.parent = none) :
    table.ancestors id = [id] := by
  have inside := lt_length_of_get? found
  cases length : table.scopes.length with
  | zero => exact absurd inside (by simp [length])
  | succ count => simp [ancestors, length, climb, found, around]

theorem WellFormed.ancestors_cons (wellFormed : table.WellFormed) {parent : ScopeId}
    (found : table.get? id = some scope) (around : scope.parent = some parent) :
    table.ancestors id = id :: table.ancestors parent := by
  have inside := lt_length_of_get? found
  have smaller : parent < id := wellFormed.parent_lt found around
  calc table.ancestors id = table.climb (id + 1) id := wellFormed.climb_stable inside
    _ = id :: table.climb id parent := by simp [climb, found, around]
    _ = id :: table.ancestors parent := by
        rw [wellFormed.climb_stable smaller, ancestors,
          wellFormed.climb_stable (Nat.lt_trans smaller inside)]

/--
What holds of absent and of outermost scopes, and of a scope whenever it holds
of the one around it, holds of every scope.
-/
theorem WellFormed.induction (wellFormed : table.WellFormed) {motive : ScopeId → Prop}
    (absent : ∀ id, table.get? id = none → motive id)
    (outermost : ∀ id scope, table.get? id = some scope → scope.parent = none → motive id)
    (inner : ∀ id scope parent, table.get? id = some scope →
      scope.parent = some parent → motive parent → motive id)
    (id : ScopeId) : motive id := by
  induction id using Nat.strongRecOn with
  | _ id ih =>
    cases found : table.get? id with
    | none => exact absent id found
    | some scope =>
      cases around : scope.parent with
      | none => exact outermost id scope found around
      | some parent =>
        exact inner id scope parent found around
          (ih parent (wellFormed.parent_lt found around))

/-! ## Ancestors -/

variable {table : ScopeTable}

section

variable (wellFormed : table.WellFormed)
include wellFormed

/-- The way outwards from a scope starts at the scope. -/
theorem WellFormed.ancestors_head (inside : id < table.scopes.length) :
    ∃ around, table.ancestors id = id :: around := by
  obtain ⟨scope, found⟩ := exists_get? inside
  cases around : scope.parent with
  | none => exact ⟨[], ancestors_of_root found around⟩
  | some parent => exact ⟨_, wellFormed.ancestors_cons found around⟩

theorem WellFormed.mem_ancestors_self (inside : id < table.scopes.length) :
    id ∈ table.ancestors id := by
  obtain ⟨around, way⟩ := wellFormed.ancestors_head inside
  simp [way]

/-- The scopes around a scope exist and have no larger numbers. -/
theorem WellFormed.le_of_mem_ancestors (member : ancestor ∈ table.ancestors id) :
    ancestor ≤ id ∧ ancestor < table.scopes.length := by
  induction id using wellFormed.induction with
  | absent id absent =>
    simp [ancestors_of_none absent] at member
  | outermost id scope found around =>
    rw [ancestors_of_root found around, List.mem_singleton] at member
    exact ⟨Nat.le_of_eq member, member ▸ lt_length_of_get? found⟩
  | inner id scope parent found around ih =>
    rw [wellFormed.ancestors_cons found around, List.mem_cons] at member
    rcases member with equal | outer
    · exact ⟨Nat.le_of_eq equal, equal ▸ lt_length_of_get? found⟩
    · have bound := ih outer
      have smaller := wellFormed.parent_lt found around
      exact ⟨Nat.le_trans bound.1 (Nat.le_of_lt smaller), bound.2⟩

/-- The way outwards from a scope goes on as the way from any scope on it. -/
theorem WellFormed.ancestors_suffix (member : ancestor ∈ table.ancestors id) :
    table.ancestors ancestor <:+ table.ancestors id := by
  induction id using wellFormed.induction with
  | absent id absent =>
    simp [ancestors_of_none absent] at member
  | outermost id scope found around =>
    rw [ancestors_of_root found around, List.mem_singleton] at member
    exact member ▸ List.suffix_refl _
  | inner id scope parent found around ih =>
    have unfolded := wellFormed.ancestors_cons found around
    rw [unfolded, List.mem_cons] at member
    rcases member with equal | outer
    · exact equal ▸ List.suffix_refl _
    · rw [unfolded]
      exact (ih outer).trans (List.suffix_cons _ _)

theorem WellFormed.ancestors_decreasing (id : ScopeId) :
    (table.ancestors id).Pairwise fun inner outer => outer < inner := by
  induction id using wellFormed.induction with
  | absent id absent => simp [ancestors_of_none absent]
  | outermost id scope found around => simp [ancestors_of_root found around]
  | inner id scope parent found around ih =>
    rw [wellFormed.ancestors_cons found around, List.pairwise_cons]
    refine ⟨fun ancestor member => ?_, ih⟩
    have bound := (wellFormed.le_of_mem_ancestors member).1
    exact Nat.lt_of_le_of_lt bound (wellFormed.parent_lt found around)

/-- A scope splits the way on which it lies into what is inside it and its own way. -/
theorem WellFormed.ancestors_split (member : ancestor ∈ table.ancestors id) :
    ∃ inside, table.ancestors id = inside ++ table.ancestors ancestor ∧
      ∀ between ∈ inside, ancestor < between := by
  obtain ⟨inside, split⟩ := wellFormed.ancestors_suffix member
  refine ⟨inside, split.symm, fun between isBetween => ?_⟩
  have ordered := wellFormed.ancestors_decreasing id
  rw [← split, List.pairwise_append] at ordered
  have exists_ := (wellFormed.le_of_mem_ancestors member).2
  exact ordered.2.2 between isBetween ancestor (wellFormed.mem_ancestors_self exists_)

end

@[simp]
theorem isWithin_iff : table.isWithin id ancestor = true ↔ ancestor ∈ table.ancestors id := by
  simp [isWithin]

theorem WellFormed.mem_ancestors_trans (wellFormed : table.WellFormed)
    {inner middle outer : ScopeId} (first : middle ∈ table.ancestors inner)
    (second : outer ∈ table.ancestors middle) :
    outer ∈ table.ancestors inner :=
  (wellFormed.ancestors_suffix first).subset second

/-- Of two scopes around a third, one lies in the other. -/
theorem WellFormed.ancestors_linear (wellFormed : table.WellFormed) {first second : ScopeId}
    (isFirst : first ∈ table.ancestors id) (isSecond : second ∈ table.ancestors id) :
    first ∈ table.ancestors second ∨ second ∈ table.ancestors first := by
  have firstSelf := wellFormed.mem_ancestors_self (wellFormed.le_of_mem_ancestors isFirst).2
  have secondSelf := wellFormed.mem_ancestors_self (wellFormed.le_of_mem_ancestors isSecond).2
  rcases List.suffix_or_suffix_of_suffix (wellFormed.ancestors_suffix isFirst)
      (wellFormed.ancestors_suffix isSecond) with outer | outer
  · exact Or.inl (outer.subset firstSelf)
  · exact Or.inr (outer.subset secondSelf)

/-- Of the scopes around a scope that pass a test, the first one is the innermost. -/
theorem WellFormed.le_of_find?_ancestors (wellFormed : table.WellFormed) {found other : ScopeId}
    {test : ScopeId → Bool} (isFound : (table.ancestors id).find? test = some found)
    (around : other ∈ table.ancestors id) (passes : test other = true) :
    other ≤ found := by
  obtain ⟨_, before, after, way, nearer⟩ := List.find?_eq_some_iff_append.1 isFound
  have ordered := wellFormed.ancestors_decreasing id
  rw [way] at around ordered
  rcases List.mem_append.1 around with isNearer | isRest
  · have fails := nearer other isNearer
    simp [passes] at fails
  · rw [List.pairwise_append, List.pairwise_cons] at ordered
    rcases List.mem_cons.1 isRest with isSame | isOuter
    · exact Nat.le_of_eq isSame
    · exact Nat.le_of_lt (ordered.2.1.1 other isOuter)

end Codemod.ScopeTable
