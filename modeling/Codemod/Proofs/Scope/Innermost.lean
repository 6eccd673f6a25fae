import Codemod.Proofs.Scope.Nearest
import Mathlib.Logic.Relation

/-!
# The scope at an offset

The scope at an offset is found in one pass over the scopes, in the order in
which they open.  The pass holds one scope at a time; it goes on to the next
scope that lies below that one and holds the offset, and it never goes back.

Spans need not nest for this to be right: a scope may hold the offset although
the scope around it does not.  The pass asks only whether a scope lies below
the one it has, at whatever depth (`WellFormed.isBelow_iff`).  Since scopes open
after the scopes around them, nothing below the scope that the pass goes on to
has been passed by.
-/

namespace Codemod.ScopeTable

open Relation

/-- A scope opens directly in another one. -/
def OpensIn (table : ScopeTable) (inner outer : ScopeId) : Prop :=
  ∃ scope, table.get? inner = some scope ∧ scope.parent = some outer

/-- A scope lies in another one, at any depth, and is not that scope itself. -/
def IsBelow (table : ScopeTable) : (inner outer : ScopeId) → Prop :=
  TransGen table.OpensIn

/-- Whether the span of a scope of the table holds an offset. -/
def holdsAt (table : ScopeTable) (offset : Nat) (id : ScopeId) : Bool :=
  (table.get? id).any fun scope => scope.span.holds offset

variable {table : ScopeTable} {offset count : Nat} {inner outer current : ScopeId} {scope : Scope}

/-! ## Lying below -/

theorem WellFormed.lt_of_isBelow (wellFormed : table.WellFormed)
    (below : table.IsBelow inner outer) : outer < inner := by
  induction below with
  | single opens =>
    obtain ⟨scope, found, around⟩ := opens
    exact wellFormed.parent_lt found around
  | tail _ opens ih =>
    obtain ⟨scope, found, around⟩ := opens
    exact Nat.lt_trans (wellFormed.parent_lt found around) ih

/-- The way outwards leads through the scopes in which a scope lies, and no others. -/
theorem WellFormed.reflTransGen_opensIn_iff (wellFormed : table.WellFormed)
    (inside : inner < table.scopes.length) :
    ReflTransGen table.OpensIn inner outer ↔ table.isWithin inner outer = true := by
  rw [isWithin_iff]
  constructor
  · intro opens
    induction opens using ReflTransGen.head_induction_on with
    | refl => exact wellFormed.mem_ancestors_self inside
    | head opens _ ih =>
      obtain ⟨scope, found, around⟩ := opens
      have smaller := wellFormed.parent_lt found around
      rw [wellFormed.ancestors_cons found around]
      exact List.mem_cons_of_mem _ (ih (Nat.lt_trans smaller inside))
  · intro member
    induction inner using wellFormed.induction with
    | absent id absent => simp [ancestors_of_none absent] at member
    | outermost id scope found around =>
      rw [ancestors_of_root found around, List.mem_singleton] at member
      exact member ▸ ReflTransGen.refl
    | inner id scope parent found around ih =>
      rw [wellFormed.ancestors_cons found around, List.mem_cons] at member
      rcases member with same | isOuter
      · exact same ▸ ReflTransGen.refl
      · have smaller := wellFormed.parent_lt found around
        have further := ih (Nat.lt_trans smaller inside) isOuter
        exact ReflTransGen.head ⟨scope, found, around⟩ further

/-- A scope lies below another one exactly if the scope around it is that one or lies in it. -/
theorem WellFormed.isBelow_iff (wellFormed : table.WellFormed)
    (found : table.get? inner = some scope) :
    table.IsBelow inner outer ↔
      scope.parent.any (fun parent => table.isWithin parent outer) = true := by
  rw [IsBelow, TransGen.head'_iff, Option.any_eq_true]
  constructor
  · rintro ⟨parent, ⟨same, isFound, around⟩, further⟩
    obtain rfl : scope = same := Option.some.inj (found.symm.trans isFound)
    have smaller := wellFormed.parent_lt found around
    have inside := Nat.lt_trans smaller (lt_length_of_get? found)
    exact ⟨parent, around, (wellFormed.reflTransGen_opensIn_iff inside).1 further⟩
  · rintro ⟨parent, around, within⟩
    have smaller := wellFormed.parent_lt found around
    have inside := Nat.lt_trans smaller (lt_length_of_get? found)
    exact ⟨parent, ⟨scope, found, around⟩, (wellFormed.reflTransGen_opensIn_iff inside).2 within⟩

/-! ## The pass -/

/-- Go on to a scope that lies below the one at hand and holds the offset. -/
def narrow (table : ScopeTable) (offset : Nat) (current : ScopeId) (scope : Scope) : ScopeId :=
  if scope.span.holds offset && scope.parent.any (fun parent => table.isWithin parent current)
  then scope.id else current

theorem scopeAt_eq (table : ScopeTable) (offset : Nat) :
    table.scopeAt offset = table.scopes.foldl (table.narrow offset) root := rfl

/-- What the pass has at hand once it has come to a number of scopes. -/
structure IsInnermostOf (table : ScopeTable) (offset count : Nat) (current : ScopeId) : Prop where
  around : current = root ∨ table.holdsAt offset current = true
  innermost : ∀ inner < count, table.IsBelow inner current → table.holdsAt offset inner = false

/-- One more scope is looked at. -/
theorem IsInnermostOf.step (wellFormed : table.WellFormed)
    (innermost : table.IsInnermostOf offset count current)
    (found : table.get? count = some scope) :
    table.IsInnermostOf offset (count + 1) (table.narrow offset current scope) := by
  have holds : table.holdsAt offset count = scope.span.holds offset := by
    rw [holdsAt, found, Option.any_some]
  rw [narrow]
  split
  · next goesOn =>
    rw [Bool.and_eq_true] at goesOn
    rw [wellFormed.id_eq found]
    refine ⟨Or.inr (holds.trans goesOn.1), fun inner early below => ?_⟩
    -- What lies below the new scope opens after it, so the pass is not there yet.
    have late := wellFormed.lt_of_isBelow below
    exact absurd early (Nat.not_lt_of_le late)
  · next stays =>
    refine ⟨innermost.around, fun inner early below => ?_⟩
    rcases Nat.lt_succ_iff_lt_or_eq.1 early with earlier | rfl
    · exact innermost.innermost inner earlier below
    · rw [holds, Bool.eq_false_iff]
      intro isHeld
      exact stays (Bool.and_eq_true_iff.2 ⟨isHeld, (wellFormed.isBelow_iff found).1 below⟩)

theorem WellFormed.isInnermostOf_take (wellFormed : table.WellFormed) (offset : Nat)
    (inside : count ≤ table.scopes.length) :
    table.IsInnermostOf offset count
      ((table.scopes.take count).foldl (table.narrow offset) root) := by
  induction count with
  | zero =>
    refine ⟨Or.inl rfl, fun inner early => ?_⟩
    exact absurd early (Nat.not_lt_zero inner)
  | succ count ih =>
    have found : table.get? count = some table.scopes[count] := List.getElem?_eq_getElem inside
    have earlier := ih (Nat.le_of_succ_le inside)
    rw [List.take_succ_eq_append_getElem inside, List.foldl_append]
    exact earlier.step wellFormed found

theorem WellFormed.isInnermostOf_scopeAt (wellFormed : table.WellFormed) (offset : Nat) :
    table.IsInnermostOf offset table.scopes.length (table.scopeAt offset) := by
  have whole := wellFormed.isInnermostOf_take offset (Nat.le_refl table.scopes.length)
  rwa [List.take_length, ← scopeAt_eq] at whole

/--
The scope at an offset of a program exists; it is the scope of the text or holds
the offset, and no scope below it holds the offset, at any depth.
-/
theorem scopes_at_offsets_are_innermost {tree : Node} (isText : tree.kind = .program)
    (offset : Nat) :
    let table := ofProgram tree
    (∃ scope, table.get? (table.scopeAt offset) = some scope ∧
      (table.scopeAt offset = root ∧ scope.kind = .text ∨ scope.span.holds offset = true)) ∧
    ∀ inner scope, table.IsBelow inner (table.scopeAt offset) →
      table.get? inner = some scope → scope.span.holds offset = false := by
  have wellFormed := wellFormed_ofProgram tree
  obtain ⟨survey, isTable, rooted⟩ := rooted_ofProgram isText
  rw [← isTable] at wellFormed ⊢
  have result := wellFormed.isInnermostOf_scopeAt offset
  constructor
  · rcases result.around with isRoot | isHeld
    · obtain ⟨scope, found, isKind, _⟩ := rooted.text
      exact ⟨scope, isRoot ▸ found, Or.inl ⟨isRoot, isKind⟩⟩
    · obtain ⟨scope, found, holds⟩ := (Option.any_eq_true ..).1 isHeld
      exact ⟨scope, found, Or.inr holds⟩
  · intro inner scope below found
    have notHeld := result.innermost inner (lt_length_of_get? found) below
    rwa [holdsAt, found, Option.any_some] at notHeld

/-- Blocks in a `switch`, whose scope has the span of the last name before its braces. -/
def blocksInSwitch : Option Program :=
  parseProgram .plain "switch (a.b) { case 1: { x; { y; } } }".toList

/--
At `x`, the scope of the outer block is found below the scope of the `switch`,
which does not hold the offset; the inner block lies below it and does not either.
-/
theorem scopes_at_offsets_are_innermost_in_blocksInSwitch :
    ∃ program, blocksInSwitch = some program ∧ program.root.kind = .program ∧
      let table := ofProgram program.root
      table.scopeAt 25 = 2 ∧ table.IsBelow 2 1 ∧ table.holdsAt 25 1 = false ∧
        table.IsBelow 3 2 ∧
        ∀ scope, table.get? 3 = some scope → scope.span.holds 25 = false := by
  obtain ⟨program, parsed, isFound, isOutside, first, second⟩ : ∃ program ∈ blocksInSwitch,
      (ofProgram program.root).scopeAt 25 = 2 ∧
      (ofProgram program.root).holdsAt 25 1 = false ∧
      ((ofProgram program.root).get? 2).map Scope.parent = some (some 1) ∧
      ((ofProgram program.root).get? 3).map Scope.parent = some (some 2) := by
    decide +kernel
  have isText := kind_of_parseProgram parsed
  have outerBelow : (ofProgram program.root).IsBelow 2 1 :=
    TransGen.single (Option.map_eq_some_iff.1 first)
  have innerBelow : (ofProgram program.root).IsBelow 3 2 :=
    TransGen.single (Option.map_eq_some_iff.1 second)
  obtain ⟨_, innermost⟩ := scopes_at_offsets_are_innermost isText 25
  rw [isFound] at innermost
  exact ⟨program, parsed, isText, isFound, outerBelow, isOutside, innerBelow,
    fun scope found => innermost 3 scope innerBelow found⟩

end Codemod.ScopeTable
