import Codemod.Proofs.Scope.Patterns

/-!
# Places in patterns

A name stands in one of four ways in the pattern that declares it.  `StandsAt`
says which, by the way to the name: what lies under the defaults around the whole
pattern is the name itself, an object pattern of which it takes a property or the
rest, or anything else.  The names of a pattern are listed from left to right,
each with how it stands (`lists_patternNames`).
-/

namespace Codemod.Node

/-- The key of a property as far as it is written out. -/
inductive Spells (isComputed : Bool) : Node → Option String → Prop
  | name {text : String} {span : Span} {parts : List Node} (plain : isComputed = false) :
      Spells isComputed (mk (.name text) span parts) (some text)
  | literal {text : String} {span : Span} {parts : List Node} :
      Spells isComputed (mk (.stringLiteral text) span parts) (some text)
  | other {kind : Kind} {span : Span} {parts : List Node}
      (notName : ∀ text, kind = .name text → isComputed = true)
      (notLiteral : ∀ text, kind ≠ .stringLiteral text) :
      Spells isComputed (mk kind span parts) none

/-- A value is a name, directly or under one default. -/
inductive Named (name : String) : Node → Place → Bool → Prop
  | plain {span : Span} {types : List Node} : Named name (mk (.binding name) span types) [] false
  | default {span place : Span} {types more : List Node} :
      Named name (mk .patternDefault span (mk (.binding name) place types :: more)) [0] true

/-- How a name stands in a part of the outermost object pattern, if it is not nested. -/
inductive PartMarks : Node → Place → PatternPlace → Prop
  | shorthand {isComputed hasDefault : Bool} {span : Span} {value : Node} {name : String}
      {path : Place} (isNamed : value.Named name path hasDefault) :
      PartMarks (mk (.patternProperty true isComputed) span [value]) (0 :: path)
        (.property (some name) hasDefault)
  | pair {isComputed hasDefault : Bool} {span : Span} {key value : Node} {name : String}
      {path : Place} {static : Option String} (isKey : key.Spells isComputed static)
      (isNamed : value.Named name path hasDefault) :
      PartMarks (mk (.patternProperty false isComputed) span [key, value]) (1 :: path)
        (.property static hasDefault)
  | rest {span place : Span} {name : String} {types : List Node} :
      PartMarks (mk .rest span [mk (.binding name) place types]) [0] .rest

/-- How a name stands in a pattern under its defaults, if it is not nested. -/
inductive Marks : Node → Place → PatternPlace → Prop
  | direct {name : String} {span : Span} {types : List Node} :
      Marks (mk (.binding name) span types) [] .direct
  | part {span : Span} {parts : List Node} {index : Nat} {part : Node} {path : Place}
      {place : PatternPlace} (isPart : parts[index]? = some part)
      (marks : part.PartMarks path place) :
      Marks (mk .objectPattern span parts) (index :: path) place
  | default {span : Span} {pattern : Node} {more : List Node} {path : Place}
      {place : PatternPlace} (inner : pattern.Marks path place) :
      Marks (mk .patternDefault span (pattern :: more)) (0 :: path) place

/-- A name stands as it is marked, and is nested where it is not marked. -/
def OrNested (marks : Place → PatternPlace → Prop) (path : Place) (place : PatternPlace) : Prop :=
  marks path place ∨ place = .nested ∧ ∀ other, ¬ marks path other

/-- How the name to which a way leads stands in a pattern. -/
def StandsAt (pattern : Node) : Place → PatternPlace → Prop :=
  OrNested pattern.Marks

variable {kind : Kind} {span : Span} {children parts more : List Node}
  {pattern part key value : Node} {name : String} {path : Place} {place : PatternPlace}
  {isComputed hasDefault : Bool} {static : Option String}
  {marks others : Place → PatternPlace → Prop}

theorem spells_iff : key.Spells isComputed static ↔ key.staticKey? isComputed = static := by
  constructor
  · intro spells
    cases spells with
    | name plain => simp [staticKey?, plain]
    | literal => rfl
    | other notName notLiteral =>
      unfold staticKey?
      split
      · next text isName => rw [notName text isName, if_pos rfl]
      · next text isLiteral => exact absurd isLiteral (notLiteral text)
      · rfl
  · rintro rfl
    obtain ⟨kind, span, parts⟩ := key
    unfold staticKey?
    split
    · next text isName =>
      obtain rfl : kind = .name text := isName
      cases isComputed with
      | true => exact .other (fun _ _ => rfl) (by rintro _ ⟨⟩)
      | false => exact .name rfl
    · next text isLiteral =>
      obtain rfl : kind = .stringLiteral text := isLiteral
      exact .literal
    · next notName notLiteral =>
      exact .other (fun text isName => absurd isName (notName text)) notLiteral

theorem orNested_congr {other : Place} (same : ∀ place, marks path place ↔ others other place) :
    OrNested marks path place ↔ OrNested others other place := by
  rw [OrNested, OrNested, same]
  simp only [same]

theorem exists_standsAt (pattern : Node) (path : Place) : ∃ place, pattern.StandsAt path place := by
  by_cases isMarked : ∃ place, pattern.Marks path place
  · obtain ⟨place, marks⟩ := isMarked
    exact ⟨place, Or.inl marks⟩
  · exact ⟨.nested, Or.inr ⟨rfl, fun place marks => isMarked ⟨place, marks⟩⟩⟩

/-- What a pattern binds with how it stands. -/
def classified (pattern : Node) (marks : Place → PatternPlace → Prop) (path : Place)
    (entry : PatternName) : Prop :=
  pattern.BoundAt entry.name entry.span path ∧ OrNested marks path entry.place

/-- Where nothing is marked, all names are nested. -/
theorem lists_nestedNames (lists : ListsByPath pattern.bound pattern.declaredNames)
    (unmarked : ∀ path place, ¬ marks path place) :
    ListsByPath (pattern.classified marks) pattern.nestedNames := by
  refine (lists.map _).congr fun path entry => ?_
  constructor
  · rintro ⟨⟨name, place⟩, isBound, rfl⟩
    exact ⟨isBound, Or.inr ⟨rfl, unmarked path⟩⟩
  · rintro ⟨isBound, isMarked | ⟨isNested, _⟩⟩
    · exact absurd isMarked (unmarked path _)
    · exact ⟨(entry.name, entry.span), isBound, by rw [← isNested]⟩

/-- A single name is listed with its mark. -/
theorem lists_name {entry : PatternName} (path : Place)
    (only : ∀ other found, pattern.BoundAt found.1 found.2 other ↔
      other = path ∧ found = (entry.name, entry.span))
    (isMarked : ∀ place, marks path place ↔ place = entry.place) :
    ListsByPath (pattern.classified marks) [entry] := by
  refine .singleton path fun other found => ?_
  rw [classified, only other (found.name, found.span)]
  constructor
  · rintro ⟨⟨rfl, same⟩, stands⟩
    rcases stands with stands | ⟨_, unmarked⟩
    · have isPlace := (isMarked found.place).1 stands
      obtain ⟨name, span, place⟩ := found
      obtain ⟨name', span', place'⟩ := entry
      simp_all
    · exact absurd ((isMarked entry.place).2 rfl) (unmarked entry.place)
  · rintro ⟨rfl, rfl⟩
    exact ⟨⟨rfl, rfl⟩, Or.inl ((isMarked _).2 rfl)⟩

theorem boundAt_binding {types : List Node} {found : String × Span} {other : Place} :
    (mk (.binding name) span types).BoundAt found.1 found.2 other ↔
      other = [] ∧ found = (name, span) := by
  constructor
  · rintro ⟨⟩
    exact ⟨rfl, rfl⟩
  · rintro ⟨rfl, rfl⟩
    exact .binding

/-- One step down, what is listed of a part is listed of the whole. -/
theorem lists_below {names : List PatternName} (number : Nat)
    (lists : ListsByPath (value.classified fun path => marks (number :: path)) names)
    (only : ∀ path entry, part.bound path entry ↔
      ∃ inner, number :: inner = path ∧ value.bound inner entry) :
    ListsByPath (part.classified marks) names := by
  refine (lists.below number).congr fun path entry => ?_
  rw [classified, ← bound.eq_def part path (entry.name, entry.span), only]
  constructor
  · rintro ⟨inner, rfl, isBound, stands⟩
    exact ⟨⟨inner, rfl, isBound⟩, stands⟩
  · rintro ⟨⟨inner, rfl, isBound⟩, stands⟩
    exact ⟨inner, rfl, isBound, stands⟩

/-- The names of the value of a property, of which only a name itself is marked. -/
theorem lists_value (number : Nat) (lists : ListsByPath value.bound value.declaredNames)
    (isValue : part.propertyValue? = some value) (notRest : part.kind ≠ .rest)
    (only : ∀ path entry, part.bound path entry ↔
      ∃ inner, number :: inner = path ∧ value.bound inner entry)
    (isMarked : ∀ path place, part.PartMarks (number :: path) place ↔ ∃ name hasDefault,
      value.Named name path hasDefault ∧ place = .property part.propertyKey? hasDefault) :
    ListsByPath (part.classified part.PartMarks) part.propertyNames := by
  refine lists_below number ?_ only
  unfold propertyNames
  split
  · exact absurd rfl notRest
  · exact absurd rfl notRest
  · rw [isValue]
    split
    · next same =>
      cases same
      refine lists_name [] (fun _ _ => boundAt_binding) fun place => ?_
      rw [isMarked]
      exact ⟨fun ⟨_, _, isNamed, isPlace⟩ => by cases isNamed; exact isPlace,
        fun isPlace => ⟨_, _, .plain, isPlace⟩⟩
    · next same =>
      cases same
      refine lists_name [0] (fun other found => ?_) fun place => ?_
      · refine bound_default.trans ?_
        simp only [bound, boundAt_binding]
        exact ⟨fun ⟨_, isPath, isInner, isFound⟩ => ⟨by rw [← isPath, isInner], isFound⟩,
          fun ⟨isPath, isFound⟩ => ⟨[], isPath.symm, rfl, isFound⟩⟩
      · rw [isMarked]
        exact ⟨fun ⟨_, _, isNamed, isPlace⟩ => by cases isNamed; exact isPlace,
          fun isPlace => ⟨_, _, .default, isPlace⟩⟩
    · next notBinding notDefault same =>
      cases same
      refine lists_nestedNames lists fun path place marked => ?_
      obtain ⟨name, hasDefault, isNamed, _⟩ := (isMarked path place).1 marked
      cases isNamed with
      | plain => exact notBinding _ _ _ rfl
      | default => exact notDefault _ _ _ _ _ rfl
    · next same => cases same

theorem shorthandName?_of_named (isNamed : value.Named name path hasDefault) :
    value.shorthandName? = some name := by
  cases isNamed <;> rfl

theorem partMarks_shorthand :
    (mk (.patternProperty true isComputed) span [value]).PartMarks (0 :: path) place ↔
      ∃ name hasDefault, value.Named name path hasDefault ∧
        place = .property value.shorthandName? hasDefault := by
  constructor
  · rintro ⟨isNamed⟩
    exact ⟨_, _, isNamed, by rw [shorthandName?_of_named isNamed]⟩
  · rintro ⟨name, hasDefault, isNamed, rfl⟩
    rw [shorthandName?_of_named isNamed]
    exact .shorthand isNamed

theorem partMarks_pair :
    (mk (.patternProperty false isComputed) span [key, value]).PartMarks (1 :: path) place ↔
      ∃ name hasDefault, value.Named name path hasDefault ∧
        place = .property (key.staticKey? isComputed) hasDefault := by
  constructor
  · intro marks
    cases marks with
    | pair isKey isNamed => exact ⟨_, _, isNamed, by rw [spells_iff.1 isKey]⟩
  · rintro ⟨name, hasDefault, isNamed, rfl⟩
    exact .pair (spells_iff.2 rfl) isNamed

theorem lists_rest {argument : Node} (lists : ListsByPath argument.bound argument.declaredNames) :
    ListsByPath ((mk .rest span [argument]).classified (mk .rest span [argument]).PartMarks)
      (mk .rest span [argument]).propertyNames := by
  refine lists_below 0 ?_ fun _ _ => bound_rest
  unfold propertyNames
  split
  · next same =>
    cases same
    refine lists_name [] (fun _ _ => boundAt_binding) fun place => ?_
    exact ⟨by rintro ⟨⟩; rfl, by rintro rfl; exact .rest⟩
  · next notBinding same =>
    cases same
    refine lists_nestedNames lists fun path place marks => ?_
    cases marks
    exact notBinding _ _ _ rfl
  · next notBinding notRest => exact absurd rfl (notRest _ _ _)

/-- The names of a part of the outermost object pattern, each with how it stands. -/
theorem lists_propertyNames (shaped : part.isWellShaped = true)
    (isPart : part.kind.isPatternPart = true ∨ part.kind = .typeAscription) :
    ListsByPath (part.classified part.PartMarks) part.propertyNames := by
  obtain ⟨kind, span, children⟩ := part
  obtain ⟨own, parts⟩ := isWellShaped_mk.1 shaped
  have listed {child : Node} (isChild : child ∈ children) (notParameters : kind ≠ .parameters)
      (notCatch : kind ≠ .catchClause) : ListsByPath child.bound child.declaredNames :=
    lists_declaredNames (parts child isChild)
      (isParameter_part own notParameters notCatch child isChild)
  simp only [arePartsShaped, Bool.and_eq_true] at own
  cases kind with
  | patternProperty isShorthand isComputed =>
    cases isShorthand with
    | true =>
      obtain ⟨value, rfl⟩ := List.length_eq_one_iff.1 (beq_iff_eq.1 own.2)
      exact lists_value 0 (listed (by simp) (by rintro ⟨⟩) (by rintro ⟨⟩)) rfl (by rintro ⟨⟩)
        (fun _ _ => bound_shorthand) fun _ _ => partMarks_shorthand
    | false =>
      obtain ⟨key, value, rfl⟩ := List.length_eq_two.1 (beq_iff_eq.1 own.2)
      exact lists_value 1 (listed (by simp) (by rintro ⟨⟩) (by rintro ⟨⟩)) rfl (by rintro ⟨⟩)
        (fun _ _ => bound_pair) fun _ _ => partMarks_pair
  | rest =>
    obtain ⟨argument, rfl⟩ := List.length_eq_one_iff.1 (beq_iff_eq.1 own.2)
    exact lists_rest (listed (by simp) (by rintro ⟨⟩) (by rintro ⟨⟩))
  | typeAscription => exact .nil (by rintro _ _ ⟨⟨⟩, _⟩)
  | _ => rcases isPart with isPart | isPart <;> cases isPart

theorem marks_part {index : Nat} (isPart : parts[index]? = some part) :
    (mk .objectPattern span parts).Marks (index :: path) place ↔ part.PartMarks path place := by
  constructor
  · rintro (_ | ⟨isOther, marks⟩)
    rw [isPart, Option.some.injEq] at isOther
    exact isOther ▸ marks
  · exact .part isPart

theorem marks_default : (mk .patternDefault span (pattern :: more)).Marks (0 :: path) place ↔
      pattern.Marks path place :=
  ⟨by rintro ⟨⟩; assumption, .default⟩

/-- The names of a pattern from left to right, each with how it stands. -/
theorem lists_patternNames (shaped : pattern.isWellShaped = true)
    (notParameter : pattern.kind.isParameter = false) :
    ListsByPath (pattern.classified pattern.Marks) pattern.patternNames := by
  induction pattern using Node.induction with
  | step kind span children ih =>
    obtain ⟨own, parts⟩ := isWellShaped_mk.1 shaped
    unfold patternNames
    split
    · next same =>
      cases same
      refine lists_name [] (fun _ _ => boundAt_binding) fun place => ?_
      exact ⟨by rintro ⟨⟩; rfl, by rintro rfl; exact .direct⟩
    · next same =>
      cases same
      simp only [arePartsShaped, Bool.and_eq_true, List.all_eq_true, Bool.or_eq_true,
        beq_iff_eq] at own
      refine (ListsByPath.parts fun part isPart =>
        lists_propertyNames (parts part isPart) (own.2 part isPart)).congr fun path entry => ?_
      rw [classified, ← bound.eq_def _ path (entry.name, entry.span), bound_objectPattern]
      constructor
      · rintro ⟨index, part, inner, rfl, isPart, isBound, stands⟩
        exact ⟨⟨index, part, inner, rfl, isPart, isBound⟩,
          (orNested_congr fun _ => marks_part isPart).2 stands⟩
      · rintro ⟨⟨index, part, inner, rfl, isPart, isBound⟩, stands⟩
        exact ⟨index, part, inner, rfl, isPart, isBound,
          (orNested_congr fun _ => marks_part isPart).1 stands⟩
    · next pattern more same =>
      cases same
      have inner := ih pattern List.mem_cons_self
        (parts pattern List.mem_cons_self)
        (isParameter_part own (by rintro ⟨⟩) (by rintro ⟨⟩) pattern List.mem_cons_self)
      refine lists_below 0 (inner.congr fun path entry => ?_) fun _ _ => bound_default
      exact and_congr_right fun _ => orNested_congr fun _ => marks_default.symm
    · next notBinding notObject notDefault =>
      have lists := lists_declaredNames shaped notParameter
      refine lists_nestedNames lists fun path place marks => ?_
      cases marks with
      | direct => exact notBinding _ _ _ rfl
      | part => exact notObject _ _ rfl
      | default => exact notDefault _ _ _ rfl

end Codemod.Node
