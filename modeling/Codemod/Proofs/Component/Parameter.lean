import Codemod.Proofs.Component.Placement

/-!
# The parameter of a component

The parameter of a component is declared in the scope of its arrow function
(`StandsAt.exists_site`).  If nothing else below the function declares the name,
every use of the name there resolves to the parameter.  A use is replaced by the
properties of the component, or by a whole property if it stands for one that the
survey of the body has found (`StandsAt.referenceEdit_eq`).
-/

namespace Codemod

open Edit ScopeTable

/--
The span of the property that a name in a body stands for, if the name is all of
the property and a survey comes to it.
-/
def Node.shorthandAt? (body : Node) (path : Place) : Option Span :=
  (body.at? path.dropLast).bind fun node =>
    if node.kind.isShorthand && body.isSurveyed path.dropLast then some node.span else none

namespace Component

/-- What points a use in a body at the properties of the component. -/
def redirection (body : Node) (path : Place) (parameter : String) (use : Span) : Edit :=
  match body.shorthandAt? path with
  | some property => .replace property (parameter.toList ++ ": this.props".toList)
  | none => .replace use "this.props".toList

variable {program : Program} {options : TransformOptions} {statement : Node}
  {candidate : Candidate} {place : Place} {parts : List Node} {parameter : String}
  {id : ScopeId}

/-- The single parameter of a list is a name behind its decorators. -/
theorem exists_of_parameter? {parameters : List Node}
    (isParameter : parameter? parameters = .ok (some parameter)) :
    ∃ isOptional span decorators own types, parameters =
      [.mk (.parameter isOptional) span (decorators ++ [.mk (.binding parameter) own types])] := by
  unfold parameter? at isParameter
  split at isParameter
  · cases isParameter
  · next isOptional span children =>
    split at isParameter
    · next name own types isLast =>
      cases isParameter
      obtain ⟨decorators, rfl⟩ := List.getLast?_eq_some_iff.mp isLast
      exact ⟨isOptional, span, decorators, own, types, rfl⟩
    · cases isParameter
  · cases isParameter

theorem introduces_parameter {parameters : Node} {isOptional : Bool} {span own : Span}
    {decorators types : List Node} (isKind : parameters.kind = .parameters)
    (isChildren : parameters.children =
      [.mk (.parameter isOptional) span (decorators ++ [.mk (.binding parameter) own types])]) :
    parameters.Introduces [0, decorators.length]
      ⟨some .innermost, .parameter, .mk (.binding parameter) own types⟩ := by
  obtain ⟨kind, outer, children⟩ := parameters
  obtain rfl : kind = .parameters := isKind
  obtain rfl : children = _ := isChildren
  exact .parameter rfl

section

variable (stands : StandsAt program.root statement candidate place parts)
    (spelled : program.IsSpelled)
    (isParameter : parameter? candidate.parameters.children = .ok (some parameter))
    (isPlace : program.root.openings[id]? = some (place ++ [0, 1]))
include stands spelled isParameter isPlace

/-- The parameter of a component is declared in the scope of its arrow function. -/
theorem StandsAt.exists_site :
    ∃ site ∈ (ofProgram program.root).sitesIn id parameter, site.kind = .parameter := by
  obtain ⟨_, _, _, _, _, shows⟩ := stands.declaration
  obtain ⟨isOptional, span, decorators, own, types, isChildren⟩ := exists_of_parameter? isParameter
  obtain ⟨index, isIndex⟩ := List.getElem?_of_mem (List.mem_of_find?_eq_some shows.isParameters)
  have isFound := List.find?_some shows.isParameters
  have isKind : candidate.parameters.kind = .parameters := beq_iff_eq.mp isFound
  have atParameters : program.root.at? (place ++ [0, 1] ++ [index]) = some candidate.parameters :=
    Node.at?_part stands.at?_arrow isIndex
  -- The names of the parameters are declared in the innermost scope, which is the function's.
  have lands : program.root.lands (place ++ [0, 1] ++ [index]) (some .innermost)
      (place ++ [0, 1]) = true := by
    rw [Node.lands, Node.innermost?, Node.scopesAt_part stands.at?_arrow isIndex,
      if_pos (Node.holdsInScope_of_isFunction rfl isIndex)]
    exact beq_self_eq_true _
  have isDeclared : program.root.DeclaredIn (place ++ [0, 1]) _ ⟨parameter, own, .parameter⟩ :=
    ⟨_, _, .intro atParameters (introduces_parameter isKind isChildren) .binding rfl, lands⟩
  obtain ⟨scope, found, _⟩ := exists_isAt spelled.shaped isPlace
  have isListed := (enumerates_declarations spelled.isText spelled.shaped isPlace found).mem_iff.mpr
    ⟨_, isDeclared⟩
  obtain ⟨⟨name, site⟩, isEntry, isSame⟩ := List.mem_map.mp isListed
  have isName : name = parameter := congrArg Declared.name isSame
  refine ⟨site, ?_, congrArg Declared.kind isSame⟩
  rw [sitesIn, found]
  exact List.mem_map.mpr ⟨_, List.mem_filter.mpr ⟨isEntry, beq_iff_eq.mpr isName⟩, rfl⟩

/-- Where the name of the parameter is declared only once, it is the parameter. -/
theorem StandsAt.exists_only_site
    (few : ((ofProgram program.root).declarationsWithin id parameter).length ≤ 1) :
    ∃ site, site.kind = .parameter ∧
      (ofProgram program.root).declarationsWithin id parameter = [(id, site)] := by
  have formed := wellFormed_ofProgram program.root
  obtain ⟨site, isSite, isKind⟩ := stands.exists_site spelled isParameter isPlace
  obtain ⟨scope, found, _⟩ := exists_isAt spelled.shaped isPlace
  have isListed := formed.mem_declarationsWithin_iff.mpr
    ⟨formed.mem_ancestors_self (lt_length_of_get? found), isSite⟩
  obtain ⟨entry, isOnly⟩ := List.length_eq_one_iff.mp
    (Nat.le_antisymm few (List.length_pos_of_mem isListed))
  rw [isOnly, List.mem_singleton] at isListed
  exact ⟨site, isKind, isListed ▸ isOnly⟩

end

/-! ## Redirections -/

section

variable (stands : StandsAt program.root statement candidate place parts)
    (spelled : program.IsSpelled)
include stands spelled

/-- A property that holds a name in the body of a component stands right above the name. -/
theorem StandsAt.shorthand_around {below : Place} {name : String} {use property : Span}
    (reached : program.root.at? below = some (.mk (.reference name) use []))
    (isProperty : property ∈ candidate.survey.shorthands) (inside : property.contains use = true) :
    ∃ path word, below = StandsAt.bodyPlace place parts ++ (path ++ [0]) ∧
      candidate.body.at? path = some word ∧ word.kind.isShorthand = true ∧ word.span = property ∧
      candidate.body.isSurveyed path = true := by
  obtain ⟨path, word, isWord, isShorthand, rfl, isSurveyed⟩ :=
    stands.exists_shorthand spelled isProperty
  obtain ⟨isComputed, isKind⟩ := Kind.isShorthand_iff.mp isShorthand
  have isThere := stands.at?_below_body isWord
  have notEmpty := (Node.reference_of_isLegible (Node.isLegible_at? spelled.legible reached)).1
  have isBelow := Node.isPrefix_of_contains_leaf spelled.nested isThere reached rfl inside notEmpty
  rcases Node.place_below_shorthand spelled.legible isThere isKind reached isBelow with
    same | ⟨isPart, _⟩
  · rw [same, isThere, Option.some.injEq] at reached
    rw [reached] at isKind
    cases isKind
  · exact ⟨path, word, by rw [isPart, List.append_assoc], isWord, isShorthand, rfl, isSurveyed⟩

/-- A property that is the name at a place of the body has been found by the survey. -/
theorem StandsAt.mem_shorthands {path : Place} {name : String} {use property : Span}
    (reached : candidate.body.at? path = some (.mk (.reference name) use []))
    (isProperty : candidate.body.shorthandAt? path = some property) :
    property ∈ candidate.survey.shorthands ∧ property.contains use = true := by
  obtain ⟨_, _, _, _, _, shows⟩ := stands.declaration
  obtain ⟨node, isNode, isFound⟩ := Option.bind_eq_some_iff.mp isProperty
  split at isFound
  · next both =>
    cases isFound
    obtain ⟨isShorthand, isSurveyed⟩ := Bool.and_eq_true_iff.mp both
    rw [shows.isSurvey]
    refine ⟨(Context.mem_shorthands_survey_iff
      (Node.isLegible_at? spelled.legible stands.at?_body)).mpr
        ⟨_, node, isNode, isShorthand, rfl, isSurveyed⟩, ?_⟩
    exact Node.contains_below (Node.isNested_at? spelled.nested stands.at?_body) isNode reached
      (List.dropLast_prefix path)
  · cases isFound

/-- In the body a use is redirected as its place in the tree says. -/
theorem StandsAt.referenceEdit_eq {path : Place} {name : String} {use : Span}
    (reached : candidate.body.at? path = some (.mk (.reference name) use [])) :
    referenceEdit candidate.survey parameter use =
      redirection candidate.body path parameter use := by
  have isUse := stands.at?_below_body reached
  rw [redirection]
  rcases referenceEdit_cases candidate.survey parameter use with
    ⟨isAlone, noProperty⟩ | ⟨property, isProperty, inside, isWhole⟩
  · cases isProperty : candidate.body.shorthandAt? path with
    | none => exact isAlone
    | some property =>
      obtain ⟨isFound, inside⟩ := stands.mem_shorthands spelled reached isProperty
      rw [noProperty property isFound] at inside
      cases inside
  · obtain ⟨way, word, isPath, isWord, isShorthand, rfl, isSurveyed⟩ :=
      stands.shorthand_around spelled isUse isProperty inside
    obtain rfl := List.append_cancel_left isPath
    have isFound : candidate.body.shorthandAt? (way ++ [0]) = some word.span := by
      rw [Node.shorthandAt?, List.dropLast_concat, isWord, Option.bind_some, isShorthand,
        isSurveyed]
      rfl
    rw [isWhole, isFound]

end

end Component

end Codemod
