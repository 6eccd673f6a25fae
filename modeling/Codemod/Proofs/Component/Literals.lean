import Codemod.Proofs.Component.Placement

/-!
# Literals in the bodies of components

The lines of the body of a component are shifted, but for those that start inside
a literal.  So no edit touches a literal that a survey finds, unless the parameter
is used in it, and its text stays (`surveyed_literals_keep_their_text`).  A literal
in a decorator of a class is overlooked, and its lines are shifted.
-/

namespace Codemod

open Edit

/-- A name is used somewhere in a node. -/
def Node.Mentions (node : Node) (name : String) (use : Span) : Prop :=
  ∃ path, node.at? path = some (.mk (.reference name) use [])

namespace Component

variable {program : Program} {options : TransformOptions} {statement literal : Node}
  {candidate : Candidate} {place : Place} {parts : List Node} {edits : List Edit}
  {edit : Edit} {path : Place}

/-- A use of the parameter is redirected inside a literal or apart from it. -/
theorem Redirects.isApart_or_mentions {parameter : String} {use : Reference} {below : Place}
    (redirects : Redirects program candidate place edit parameter use below)
    (stands : StandsAt program.root statement candidate place parts)
    (spelled : program.IsSpelled) (reached : candidate.body.at? path = some literal)
    (isLiteral : literal.kind.isLiteral = true) :
    edit.span.isApart literal.span = true ∨ literal.Mentions parameter use.span := by
  have isPlace := stands.at?_below_body reached
  rw [redirects.span_eq stands spelled]
  rcases Node.isPrefix_or_isApart spelled.nested isPlace redirects.reached with
    ⟨rest, rfl⟩ | isAbove | apart
  · right
    have isUse := redirects.reached
    rw [Node.at?_append, isPlace] at isUse
    exact ⟨rest, isUse⟩
  · have isUse := redirects.reached
    rw [Node.eq_of_isPrefix_of_leaf redirects.reached rfl isPlace isAbove, isPlace] at isUse
    cases isUse
    cases isLiteral
  · exact Or.inl (Span.isApart_symm apart)

/-- No line is shifted that starts inside a literal that the survey finds, and all others are. -/
theorem StandsAt.mem_shiftedLines_iff
    (stands : StandsAt program.root statement candidate place parts)
    (spelled : program.IsSpelled) {line : Nat} :
    line ∈ shiftedLines program.source candidate ↔
      line ∈ Text.lineStartsWithin program.source candidate.body.span.start
        candidate.body.span.stop ∧
      ∀ path literal, candidate.body.at? path = some literal → literal.kind.isLiteral = true →
        ¬ candidate.body.IsOverlooked path →
          line ≤ literal.span.start ∨ literal.span.stop ≤ line := by
  obtain ⟨_, _, _, _, _, shows⟩ := stands.declaration
  have legible := Node.isLegible_at? spelled.legible stands.at?_body
  have notInside : candidate.survey.isLiteral line = false ↔ ∀ path literal,
      candidate.body.at? path = some literal → literal.kind.isLiteral = true →
        ¬ candidate.body.IsOverlooked path →
          line ≤ literal.span.start ∨ literal.span.stop ≤ line := by
    rw [shows.isSurvey, Context.Survey.isLiteral, List.any_eq_false]
    constructor
    · intro each path literal reached isLiteral isFound
      rw [← Node.isSurveyed_eq_false_iff reached, Bool.not_eq_false] at isFound
      have outside := each literal.span ((Context.mem_literals_survey_iff legible).mpr
        ⟨path, literal, reached, isLiteral, rfl, isFound⟩)
      simp only [Bool.and_eq_true, decide_eq_true_eq] at outside
      omega
    · intro each span isFound
      obtain ⟨path, literal, reached, isLiteral, rfl, isSurveyed⟩ :=
        (Context.mem_literals_survey_iff legible).mp isFound
      have notOverlooked : ¬ candidate.body.IsOverlooked path := by
        rw [← Node.isSurveyed_eq_false_iff reached, isSurveyed]
        exact Bool.noConfusion
      have outside := each path literal reached isLiteral notOverlooked
      simp only [Bool.and_eq_true, decide_eq_true_eq]
      omega
  rw [shiftedLines, List.mem_filter, Bool.not_eq_true', notInside]

/-- What touches a literal that the survey finds redirects a use in it. -/
theorem IsEditOf.isApart_or_mentions (isEditOf : IsEditOf program candidate place edit)
    (stands : StandsAt program.root statement candidate place parts)
    (spelled : program.IsSpelled) (reached : candidate.body.at? path = some literal)
    (isLiteral : literal.kind.isLiteral = true) (isFound : ¬ candidate.body.IsOverlooked path) :
    edit.span.isApart literal.span = true ∨ ∃ parameter use,
      parameter? candidate.parameters.children = .ok (some parameter) ∧
        literal.Mentions parameter use ∧
        edit = referenceEdit candidate.survey parameter use := by
  have inBody := Span.contains_iff.mp (Node.contains_below spelled.nested stands.at?_body
    (stands.at?_below_body reached) (List.prefix_append _ _))
  cases isEditOf with
  | redirects redirects =>
    rcases redirects.isApart_or_mentions stands spelled reached isLiteral with apart | mentions
    · exact Or.inl apart
    · exact Or.inr ⟨_, _, redirects.isParameter, mentions, redirects.isEdit⟩
  | opens isSpan =>
    rw [isSpan]
    exact Or.inl (Span.isApart_iff.mpr (Or.inl inBody.1))
  | shifts isLine isSpan =>
    rw [isSpan]
    exact Or.inl (Span.isApart_iff.mpr (((stands.mem_shiftedLines_iff spelled).mp isLine).2
      path literal reached isLiteral isFound))
  | closes isSpan =>
    rw [isSpan]
    exact Or.inl (Span.isApart_iff.mpr (Or.inr inBody.2))

/--
The lines of the body of a converted component are shifted except for those that
start inside a literal that the survey finds.  So each edit of the whole plan
stands apart from such a literal or redirects a use of the parameter in it, and
if there is none, the text of the literal stays in the output.  Only literals in
parts of classes that no survey looks into are not found.
-/
theorem surveyed_literals_keep_their_text (program : Program) (options : TransformOptions)
    (spelled : program.IsSpelled) {statement : Node} {candidate : Candidate} {edits : List Edit}
    (converts : Converts program options statement candidate edits) :
    (∀ line, line ∈ shiftedLines program.source candidate ↔
      line ∈ Text.lineStartsWithin program.source candidate.body.span.start
        candidate.body.span.stop ∧
      ∀ path literal, candidate.body.at? path = some literal → literal.kind.isLiteral = true →
        ¬ candidate.body.IsOverlooked path →
          line ≤ literal.span.start ∨ literal.span.stop ≤ line) ∧
    ∀ path literal, candidate.body.at? path = some literal → literal.kind.isLiteral = true →
      ¬ candidate.body.IsOverlooked path →
      (∀ edit ∈ (plan program options).edits,
        edit.span.isApart literal.span = true ∨ ∃ parameter use,
          parameter? candidate.parameters.children = .ok (some parameter) ∧
            literal.Mentions parameter use ∧
            edit = referenceEdit candidate.survey parameter use) ∧
      ((∀ parameter use, parameter? candidate.parameters.children = .ok (some parameter) →
          ¬ literal.Mentions parameter use) →
        Becomes program.source (plan program options).edits literal.span
          (Text.slice program.source literal.span.start literal.span.stop)) := by
  obtain ⟨place, parts, stands⟩ := exists_standsAt converts.isStatement converts.isLone
  refine ⟨fun line => stands.mem_shiftedLines_iff spelled, ?_⟩
  intro path literal reached isLiteral isFound
  have isPlace := stands.at?_below_body reached
  have touched : ∀ edit ∈ touching literal.span (plan program options).edits, ∃ parameter use,
      parameter? candidate.parameters.children = .ok (some parameter) ∧
        literal.Mentions parameter use ∧
        edit = referenceEdit candidate.survey parameter use := by
    intro edit isTouching
    have inStatement := stands.contains_below spelled.nested isPlace
      ((List.prefix_append place [0, 1]).trans (StandsAt.isPrefix_bodyPlace place parts path))
    rw [touching_plan spelled converts.isStatement (isImport_of_loneCandidate? converts.isLone)
      inStatement, converts.statementEdits_eq] at isTouching
    obtain ⟨isEdit, isNear⟩ := List.mem_filter.mp isTouching
    rcases (converts.isEditOf stands spelled isEdit).isApart_or_mentions stands spelled reached
      isLiteral isFound with apart | redirects
    · rw [apart] at isNear
      cases isNear
    · exact redirects
  constructor
  · intro edit isEdit
    cases apart : edit.span.isApart literal.span with
    | true => exact Or.inl rfl
    | false => exact Or.inr (touched edit (List.mem_filter.mpr ⟨isEdit, by rw [apart]; rfl⟩))
  · intro noUse
    have range := Node.isRange_span (Node.isNested_at? spelled.nested isPlace)
      (Node.isInText_at? spelled.inText isPlace)
    refine becomes_self range ?_ fun edit isEdit => inside_of_mem_plan spelled isEdit
    rw [List.eq_nil_iff_forall_not_mem]
    intro edit isTouching
    obtain ⟨parameter, use, isParameter, mentions, _⟩ := touched edit isTouching
    exact noUse parameter use isParameter mentions

/-- A template literal without substitutions has no uses of names. -/
theorem not_mentions_of_plain {name : String} {use : Span}
    (isLiteral : literal.kind.isLiteral = true)
    (plain : ∀ part ∈ literal.children, part.kind = .templatePart ∧ part.children = []) :
    ¬ literal.Mentions name use := by
  rintro ⟨path, reached⟩
  obtain ⟨kind, span, children⟩ := literal
  rcases path with _ | ⟨index, path⟩
  · rw [Node.at?_nil, Option.some.injEq] at reached
    cases reached
    cases isLiteral
  · obtain ⟨⟨partKind, partSpan, partChildren⟩, isPart, deeper⟩ :=
      Node.at?_cons_eq_some_iff.mp reached
    obtain ⟨rfl, rfl⟩ := plain _ (List.mem_of_getElem? isPart)
    rcases path with _ | ⟨next, path⟩
    · rw [Node.at?_nil, Option.some.injEq] at deeper
      cases deeper
    · obtain ⟨_, isInner, _⟩ := Node.at?_cons_eq_some_iff.mp deeper
      cases isInner

/-- A component with a parameter and a template literal on two lines. -/
def literalLines : Option Program :=
  parseProgram .plain ("const A = (p) => \x7b\n  f(`a\n  b`);\n  return <i>\x7bp\x7d</i>;\n" ++
    "\x7d;").toList

/-- In the sample the template literal stays as it is, with the line that starts in it. -/
theorem surveyed_literals_keep_their_text_of_literalLines :
    ∃ program statement candidate edits literal, literalLines = some program ∧
      program.IsSpelled ∧ Converts program .standard statement candidate edits ∧
      candidate.body.at? [0, 0, 1] = some literal ∧ literal.kind = .template ∧
      ¬ candidate.body.IsOverlooked [0, 0, 1] ∧
      Becomes program.source (plan program .standard).edits literal.span
        "`a\n  b`".toList := by
  have evaluated : convertsSome literalLines (fun program candidate _ =>
      decide program.IsSpelled && candidate.body.isSurveyed [0, 0, 1] &&
        (candidate.body.at? [0, 0, 1]).any fun literal => literal.kind == .template &&
          (literal.children.all fun part => part.kind == .templatePart && part.children.isEmpty) &&
          Text.slice program.source literal.span.start literal.span.stop ==
            "`a\n  b`".toList) = true := by
    decide +kernel
  rcases exists_converts evaluated with
    ⟨program, statement, candidate, edits, parsed, converts, rest⟩
  simp only [Bool.and_eq_true, Option.any_eq_true, beq_iff_eq, List.all_eq_true,
    List.isEmpty_iff] at rest
  rcases rest with ⟨⟨spelled, isSurveyed⟩, literal, reached, ⟨isTemplate, isPlain⟩, isText⟩
  have isLiteral : literal.kind.isLiteral = true := by
    rw [isTemplate]
    rfl
  have isFound : ¬ candidate.body.IsOverlooked [0, 0, 1] := by
    rw [← Node.isSurveyed_eq_false_iff reached, isSurveyed]
    exact Bool.noConfusion
  have stays := ((surveyed_literals_keep_their_text program .standard (of_decide_eq_true spelled)
    converts).2 [0, 0, 1] literal reached isLiteral isFound).2
      fun _ _ _ => not_mentions_of_plain isLiteral isPlain
  rw [isText] at stays
  exact ⟨program, statement, candidate, edits, literal, parsed, of_decide_eq_true spelled, converts,
    reached, isTemplate, isFound, stays⟩

/-- A component with a template literal on two lines in a decorator of a class. -/
def decoratorLines : Option Program :=
  parseProgram .plain ("const A = () => \x7b @d(`a\nb`) class B \x7b\x7d return <div />; " ++
    "\x7d;").toList

/-- In the sample the line that starts in the literal is shifted. -/
theorem literal_in_decorator_is_shifted :
    ∃ program statement candidate edits literal, decoratorLines = some program ∧
      program.IsSpelled ∧ Converts program .standard statement candidate edits ∧
      candidate.body.at? [0, 0, 0, 1] = some literal ∧ literal.kind = .template ∧
      ∃ edit ∈ edits, literal.span.start < edit.start ∧ edit.start = edit.stop ∧
        edit.stop < literal.span.stop ∧ edit.text = "    ".toList := by
  have evaluated : convertsSome decoratorLines (fun program candidate edits =>
      decide program.IsSpelled && (candidate.body.at? [0, 0, 0, 1]).any fun literal =>
        literal.kind == .template && edits.any fun edit =>
          decide (literal.span.start < edit.start) && edit.start == edit.stop &&
            decide (edit.stop < literal.span.stop) && edit.text == "    ".toList) = true := by
    decide +kernel
  rcases exists_converts evaluated with
    ⟨program, statement, candidate, edits, parsed, converts, rest⟩
  simp only [Bool.and_eq_true, Option.any_eq_true, beq_iff_eq, List.any_eq_true,
    decide_eq_true_eq] at rest
  rcases rest with ⟨spelled, literal, reached, isTemplate, edit, isEdit,
    ⟨⟨isBehind, isEmpty⟩, isBefore⟩, isText⟩
  exact ⟨program, statement, candidate, edits, literal, parsed, spelled, converts, reached,
    isTemplate, edit, isEdit, isBehind, isEmpty, isBefore, isText⟩

end Component

end Codemod
