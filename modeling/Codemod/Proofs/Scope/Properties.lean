import Codemod.Proofs.Scope.Landing
import Codemod.Proofs.Tree.Position

/-!
# Names that are taken as properties

The names of a pattern are declared one after the other, as they stand in the
text, each with how it stands in the pattern.  So the site of a name says that the
name is taken under its own name from a chain exactly if the text does so
(`isPropertyOf_iff`).
-/

namespace Codemod

open Trace ScopeTable

namespace Node

variable {root pattern part value : Node} {identifier place path : Place} {name : String}
  {standing : PatternPlace} {hasDefault : Bool}

/-! ## Marked names are bound -/

theorem Named.boundAt (isNamed : value.Named name path hasDefault) :
    ∃ span, value.BoundAt name span path := by
  cases isNamed with
  | plain => exact ⟨_, .binding⟩
  | default => exact ⟨_, .default .binding⟩

theorem PartMarks.boundAt (marks : part.PartMarks path standing) :
    ∃ name span, part.BoundAt name span path := by
  cases marks with
  | shorthand isNamed =>
    obtain ⟨span, isBound⟩ := isNamed.boundAt
    exact ⟨_, span, .shorthand isBound⟩
  | pair _ isNamed =>
    obtain ⟨span, isBound⟩ := isNamed.boundAt
    exact ⟨_, span, .pair isBound⟩
  | rest => exact ⟨_, _, .rest .binding⟩

theorem Marks.boundAt (marks : pattern.Marks path standing) :
    ∃ name span, pattern.BoundAt name span path := by
  induction marks with
  | direct => exact ⟨_, _, .binding⟩
  | part isPart marks =>
    obtain ⟨name, span, isBound⟩ := marks.boundAt
    exact ⟨name, span, .object isPart isBound⟩
  | default _ ih =>
    obtain ⟨name, span, isBound⟩ := ih
    exact ⟨name, span, .default isBound⟩

/-- No name stands below another one. -/
theorem BoundAt.not_isPrefix {other : String} {first second : Span} {further : Place}
    (isBound : pattern.BoundAt name first path) (isOther : pattern.BoundAt other second further)
    (before : path < further) : ¬ path <+: further := by
  rintro ⟨rest, rfl⟩
  obtain ⟨types, reached⟩ := isBound.at?_eq
  cases isOther.of_at? reached
  rw [List.append_nil] at before
  exact List.lt_irrefl _ before

/-! ## Names that keep the name of their property -/

/--
An identifier takes the property of a name from a chain: the outermost object
pattern of a declarator, whose value spells the chain, has it directly and without
a default as the value of the property that the name is the key of.
-/
inductive TakesOwn (root : Node) (identifier : Place) (name : String) (chain : MemberChain) : Prop
  | intro {place path : Place} {keyword : VariableKeyword} {span extent : Span}
      {declarators : List Node} {index : Nat} {pattern value : Node}
      (reached : root.at? place = some (mk (.variableList keyword) span declarators))
      (isDeclarator : declarators[index]? = some (mk .declarator extent [pattern, value]))
      (isChain : value.chain? = some chain)
      (marks : pattern.Marks path (.property (some name) false))
      (isIdentifier : place ++ ([index, 0] ++ path) = identifier)

theorem eq_of_marks (shaped : pattern.isWellShaped = true)
    (notParameter : pattern.kind.isParameter = false) {other : PatternPlace}
    (stands : pattern.StandsAt path standing) (marks : pattern.Marks path other) :
    standing = other := by
  obtain ⟨name, span, isBound⟩ := marks.boundAt
  have same : PatternName.mk name span standing = ⟨name, span, other⟩ :=
    (lists_patternNames shaped notParameter).enumerates.unique ⟨isBound, stands⟩
      ⟨isBound, Or.inl marks⟩
  exact congrArg PatternName.place same

/-- A site says that a name is a property of a chain exactly if the name is taken so. -/
theorem isPropertyOf_iff (shaped : root.isWellShaped = true) {reach : Option Reach} {site : Site}
    (isSited : root.SitedAt identifier place reach (name, site)) (chain : MemberChain) :
    site.isPropertyOf name chain = true ↔ root.TakesOwn identifier name chain := by
  obtain ⟨reached, introduces, isBound, stands, isIdentifier⟩ := isSited
  simp only [Site.isPropertyOf, Bool.and_eq_true, beq_iff_eq]
  constructor
  · rintro ⟨⟨isVariable, rfl⟩, isChain⟩
    cases introduces with
    | declarator isDeclarator =>
      simp only [declaratorAt?, isDeclarator, Option.map_some, Option.bind_some] at isChain
      obtain ⟨value, isValue, isChain⟩ := Option.bind_eq_some_iff.1 isChain
      unfold declaratorValue? at isValue
      split at isValue
      · next same =>
        cases same
        cases isValue
        rcases stands with marks | ⟨isNested, _⟩
        · exact ⟨reached, isDeclarator, isChain, marks, isIdentifier⟩
        · cases isNested
      · cases isValue
    | _ => cases isVariable
  · rintro ⟨reachedOther, isDeclarator, isChain, marks, isOther⟩
    obtain ⟨_, _, isBoundOther⟩ := marks.boundAt
    -- One construct declares the identifier, so the declarator is the one it was found in.
    have sameWays : (_, _, _) = (_, _, _) := ways_eq reached introduces isBound reachedOther
      (.declarator isDeclarator) isBoundOther (isIdentifier.trans isOther.symm)
    cases sameWays
    rw [reached, Option.some.injEq] at reachedOther
    subst reachedOther
    have nodeShaped := isWellShaped_at? shaped reached
    have patternShaped := isWellShaped_at? nodeShaped introduces.at?_eq
    have notParameter := introduces.isParameter_eq nodeShaped
    cases introduces with
    | declarator isSame =>
      rw [isDeclarator, Option.some.injEq] at isSame
      cases isSame
      exact ⟨⟨rfl, eq_of_marks patternShaped notParameter stands marks⟩,
        by simp [declaratorAt?, isDeclarator, declaratorValue?, isChain]⟩

end Node

namespace ScopeTable

/--
A pattern declares each of the names that it binds, to any depth, once and from
left to right, with how the name stands: as the whole pattern under its defaults,
as a property of the outermost object pattern, as the rest of it, or deeper.  So
in a program, whose scopes hold the sites of these names and no others, a site is
a property of a chain under its own name exactly if a declarator with that chain
as its value takes it so.
-/
theorem bindings_are_recorded_as_they_stand {root : Node} (isText : root.kind = .program)
    (shaped : root.isWellShaped = true) :
    (∀ pattern : Node, pattern.isWellShaped = true → pattern.kind.isParameter = false →
      ∃ found : List (Place × PatternName),
        found.Pairwise (fun first second => first.1 < second.1) ∧
        (pattern.isNested = true →
          found.Pairwise fun first second => first.2.span.stop ≤ second.2.span.start) ∧
        (∀ path entry, (path, entry) ∈ found ↔
          pattern.BoundAt entry.name entry.span path ∧ pattern.StandsAt path entry.place) ∧
        ∀ reach kind declarator, declarePattern reach kind declarator pattern =
          found.map fun entry => .declare reach entry.2.name
            ⟨entry.2.span, kind, entry.2.place, declarator⟩) ∧
    (∀ id place, root.openings[id]? = some place →
      ∃ scope, (ofProgram root).get? id = some scope ∧
        Enumerates (root.SitedIn place) scope.declarations) ∧
    ∀ identifier construct reach name site chain,
      root.SitedAt identifier construct reach (name, site) →
        (site.isPropertyOf name chain = true ↔ root.TakesOwn identifier name chain) := by
  refine ⟨?_, ?_, ?_⟩
  · intro pattern shaped notParameter
    obtain ⟨found, ordered, isFound, same⟩ := Node.lists_patternNames shaped notParameter
    refine ⟨found, ordered, fun nested => ?_, isFound, fun reach kind declarator => ?_⟩
    · refine ordered.imp_of_mem fun {first second} isFirst isSecond before => ?_
      have isBound := ((isFound _ _).1 isFirst).1
      have isOther := ((isFound _ _).1 isSecond).1
      obtain ⟨_, reached⟩ := isBound.at?_eq
      obtain ⟨_, reachedOther⟩ := isOther.at?_eq
      exact Node.stop_le_start_of_lt nested reached reachedOther before
        (isBound.not_isPrefix isOther before)
    · rw [declarePattern, ← same, List.map_map]
      rfl
  · intro id place isPlace
    obtain ⟨scope, found, _⟩ := exists_isAt shaped isPlace
    exact ⟨scope, found, enumerates_sites isText shaped isPlace found⟩
  · intro identifier construct reach name site chain isSited
    exact Node.isPropertyOf_iff shaped isSited chain

/-- `const{a,b:c=1,d:[e],...f}=this.p` -/
def takenNames : Node :=
  .mk .program ⟨0, 32⟩ [
    .mk (.variableList .constant) ⟨0, 32⟩ [
      .mk .declarator ⟨5, 32⟩ [
        .mk .objectPattern ⟨5, 25⟩ [
          .mk (.patternProperty true false) ⟨6, 7⟩ [.mk (.binding "a") ⟨6, 7⟩ []],
          .mk (.patternProperty false false) ⟨8, 13⟩ [
            .mk (.name "b") ⟨8, 9⟩ [],
            .mk .patternDefault ⟨10, 13⟩ [
              .mk (.binding "c") ⟨10, 11⟩ [], .mk .numberLiteral ⟨12, 13⟩ []]],
          .mk (.patternProperty false false) ⟨14, 19⟩ [
            .mk (.name "d") ⟨14, 15⟩ [],
            .mk .arrayPattern ⟨16, 19⟩ [.mk (.binding "e") ⟨17, 18⟩ []]],
          .mk .rest ⟨20, 24⟩ [.mk (.binding "f") ⟨23, 24⟩ []]],
        .mk (.member "p" false) ⟨26, 32⟩ [
          .mk .thisExpression ⟨26, 30⟩ [], .mk (.name "p") ⟨31, 32⟩ []]]]]

theorem bindings_are_recorded_as_they_stand_in_takenNames :
    takenNames.kind = .program ∧ takenNames.isWellShaped = true ∧
    ∃ scope, (ofProgram takenNames).get? 0 = some scope ∧
      Enumerates (takenNames.SitedIn []) scope.declarations ∧
      scope.declarations.map (fun entry => (entry.1, entry.2.place)) = [
        ("a", .property (some "a") false), ("c", .property (some "b") true), ("e", .nested),
        ("f", .rest)] ∧
      ∃ identifier, takenNames.TakesOwn identifier "a" ⟨.this, ["p"]⟩ := by
  have shaped : takenNames.isWellShaped = true := by decide
  have recorded := bindings_are_recorded_as_they_stand rfl shaped
  obtain ⟨scope, found, enumerates⟩ := recorded.2.1 0 [] rfl
  have isScope : (ofProgram takenNames).get? 0 = some ⟨0, none, .text, ⟨0, 32⟩, _⟩ := rfl
  rw [isScope, Option.some.injEq] at found
  subst found
  refine ⟨rfl, shaped, _, isScope, enumerates, rfl, ?_⟩
  obtain ⟨identifier, construct, reach, isSited, _⟩ := enumerates.mem_iff.1 List.mem_cons_self
  exact ⟨identifier, (recorded.2.2 _ _ _ _ _ _ isSited).1 rfl⟩

end ScopeTable

end Codemod
