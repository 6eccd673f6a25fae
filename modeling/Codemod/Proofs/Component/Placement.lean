import Codemod.Proofs.Component.Plan
import Codemod.Proofs.Edit.Locality
import Codemod.Proofs.Scope.Occurrences
import Codemod.Proofs.Text.Lines

/-!
# Where the edits of a component lie

A component stands in its statement as the arrow function of the only variable
there (`StandsAt`).  All edits that convert it lie in the statement, and the edits
of other statements and the import of the base class lie apart from it: what
touches a range of the statement is planned for this statement (`touching_plan`).
-/

namespace Codemod

open Edit ScopeTable

namespace Component

/-- A component stands in a tree, in a statement whose variables are at a place. -/
structure StandsAt (root statement : Node) (candidate : Candidate) (place : Place)
    (parts : List Node) : Prop where
  around : ∃ index, root.children[index]? = some statement ∧
    (place = [index] ∨ place = [index, 0] ∧ statement.kind = .exportNamed)
  declaration : ∃ keyword span declarator, span.start = candidate.start ∧
    root.at? place = some (.mk (.variableList keyword) span [declarator]) ∧
      Shows declarator parts candidate
  isStop : candidate.stop = statement.span.stop

theorem exists_standsAt {root statement : Node} {candidate : Candidate}
    (isStatement : statement ∈ root.bodyStatements)
    (isLone : loneCandidate? statement = some candidate) :
    ∃ place parts, StandsAt root statement candidate place parts := by
  obtain ⟨way, parts, stands⟩ := standsIn_of_loneCandidate? isLone
  obtain ⟨index, isIndex⟩ := List.getElem?_of_mem (List.mem_filter.mp isStatement).1
  refine ⟨index :: way, parts, ⟨index, isIndex, ?_⟩, ?_, stands.isStop⟩
  · rcases stands.isWay with rfl | ⟨rfl, isExport⟩
    · exact Or.inl rfl
    · exact Or.inr ⟨rfl, isExport⟩
  · obtain ⟨keyword, span, declarator, isStart, reached, shows⟩ := stands.declaration
    exact ⟨keyword, span, declarator, isStart, Node.at?_of_getElem? isIndex reached, shows⟩

namespace StandsAt

variable {root statement : Node} {candidate : Candidate} {place : Place} {parts : List Node}

section

variable (stands : StandsAt root statement candidate place parts)
include stands

theorem at?_statement : ∃ index, root.at? [index] = some statement ∧ [index] <+: place := by
  obtain ⟨index, isIndex, isPlace⟩ := stands.around
  refine ⟨index, Node.at?_of_getElem? isIndex (Node.at?_nil _), ?_⟩
  rcases isPlace with rfl | ⟨rfl, _⟩
  · exact List.prefix_refl _
  · exact ⟨[0], rfl⟩

theorem at?_arrow : root.at? (place ++ [0, 1]) =
      some (.mk (.arrow candidate.isAsync candidate.hasExpressionBody) candidate.arrow parts) := by
  obtain ⟨_, _, _, _, reached, shows⟩ := stands.declaration
  obtain ⟨_, _, _, _, _, rfl⟩ := shows.shape
  rw [Node.at?_append, reached]
  rfl

/-- The place of the body, which is the last part of the arrow function. -/
def bodyPlace (place : Place) (parts : List Node) : Place :=
  place ++ [0, 1] ++ [parts.length - 1]

theorem at?_body : root.at? (bodyPlace place parts) = some candidate.body := by
  obtain ⟨_, _, _, _, _, shows⟩ := stands.declaration
  have isLast := shows.isBody
  rw [List.getLast?_eq_getElem?] at isLast
  exact Node.at?_part stands.at?_arrow isLast

/-- The parts of a component follow one another in its statement. -/
structure Bounds (statement : Node) (candidate : Candidate) : Prop where
  start : statement.span.start ≤ candidate.start
  arrow : candidate.start ≤ candidate.arrow.start
  head : candidate.arrow.start ≤ candidate.body.span.start
  body : candidate.body.span.start ≤ candidate.body.span.stop
  foot : candidate.body.span.stop ≤ candidate.arrow.stop
  stop : candidate.arrow.stop ≤ candidate.stop
  last : candidate.stop = statement.span.stop

theorem bounds (nested : root.isNested = true) : Bounds statement candidate := by
  obtain ⟨index, isStatement, isAbove⟩ := stands.at?_statement
  obtain ⟨keyword, span, declarator, isStart, isDeclaration, _⟩ := stands.declaration
  have inStatement := Node.contains_below nested isStatement isDeclaration isAbove
  have inDeclaration := Node.contains_below nested isDeclaration stands.at?_arrow
    (List.prefix_append _ _)
  have inArrow := Node.contains_below nested stands.at?_arrow stands.at?_body
    (List.prefix_append _ _)
  have forward := Node.start_le_stop (Node.isNested_at? nested stands.at?_body)
  have isStop := stands.isStop
  simp only [Span.contains_iff, Node.span_mk] at inStatement inDeclaration inArrow
  exact ⟨by omega, by omega, inArrow.1, forward, inArrow.2, by omega, isStop⟩

/-- What stands in the variables of a statement lies in the statement. -/
theorem contains_below (nested : root.isNested = true) {below : Place} {node : Node}
    (reached : root.at? below = some node) (isBelow : place <+: below) :
    statement.span.contains node.span = true := by
  obtain ⟨index, isStatement, isAbove⟩ := stands.at?_statement
  exact Node.contains_below nested isStatement reached (isAbove.trans isBelow)

omit stands in
theorem isPrefix_bodyPlace (place : Place) (parts : List Node) (path : Place) :
    place ++ [0, 1] <+: bodyPlace place parts ++ path := by
  rw [bodyPlace, List.append_assoc (place ++ [0, 1])]
  exact List.prefix_append _ _

/-- No node above the arrow function of a component is a function. -/
theorem isOutermost (isText : root.kind = .program) {above : Place} {node : Node}
    (isAbove : above <+: place ++ [0, 1]) (isElsewhere : above ≠ place ++ [0, 1])
    (reached : root.at? above = some node) : node.shape? = none := by
  obtain ⟨index, isIndex, isPlace⟩ := stands.around
  obtain ⟨keyword, span, declarator, _, isDeclaration, shows⟩ := stands.declaration
  obtain ⟨_, _, _, _, _, isDeclarator⟩ := shows.shape
  have atDeclarator : root.at? (place ++ [0]) = some declarator := by
    rw [Node.at?_append, isDeclaration]
    rfl
  have atStatement : root.at? [index] = some statement :=
    Node.at?_of_getElem? isIndex (Node.at?_nil _)
  -- Above the arrow function there are the declarator, the variables, an export and the root.
  have isOuter : above = place ++ [0] ∨ above = place ∨ above = [index] ∨ above = [] := by
    rw [List.append_cons, List.prefix_concat_iff, List.prefix_concat_iff] at isAbove
    rw [List.append_cons] at isElsewhere
    rcases isAbove with isArrow | isDeclared | isBefore
    · exact absurd isArrow isElsewhere
    · exact Or.inl isDeclared
    · right
      rcases isPlace with rfl | ⟨rfl, _⟩ <;>
        simp only [List.prefix_cons_iff, List.prefix_nil] at isBefore
      · rcases isBefore with rfl | ⟨_, rfl, rfl⟩
        · exact Or.inr (Or.inr rfl)
        · exact Or.inl rfl
      · rcases isBefore with rfl | ⟨_, rfl, rfl | ⟨_, rfl, rfl⟩⟩
        · exact Or.inr (Or.inr rfl)
        · exact Or.inr (Or.inl rfl)
        · exact Or.inl rfl
  have notFunction : node.kind.isFunction = false := by
    rcases isOuter with rfl | rfl | rfl | rfl
    · rw [atDeclarator, isDeclarator] at reached
      cases reached
      rfl
    · rw [isDeclaration] at reached
      cases reached
      rfl
    · rw [atStatement] at reached
      cases reached
      rcases isPlace with rfl | ⟨rfl, isExport⟩
      · rw [atStatement] at isDeclaration
        cases isDeclaration
        rfl
      · rw [isExport]
        rfl
    · rw [Node.at?_nil] at reached
      cases reached
      rw [isText]
      rfl
  obtain ⟨kind, span, children⟩ := node
  exact Node.shape?_eq_none span children notFunction

end

end StandsAt

/-! ## The edits of a component -/

variable {program : Program} {options : TransformOptions} {statement : Node}
  {candidate : Candidate} {place : Place} {parts : List Node} {edits redirected : List Edit}
  {edit : Edit}

/-- An edit points a use of the parameter of a component at the properties. -/
structure Redirects (program : Program) (candidate : Candidate) (place : Place) (edit : Edit)
    (parameter : String) (use : Reference) (below : Place) : Prop where
  isParameter : parameter? candidate.parameters.children = .ok (some parameter)
  isReference : use ∈ (ofProgram program.root).references
  reached : program.root.at? below = some (.mk (.reference parameter) use.span [])
  isBelow : place ++ [0, 1] <+: below
  isEdit : edit = referenceEdit candidate.survey parameter use.span

theorem redirections_eq_ok_iff {table : ScopeTable} {parameter : String}
    (isParameter : parameter? candidate.parameters.children = .ok (some parameter)) :
    redirections table candidate = .ok redirected ↔
      parameterEdits table candidate parameter = .ok redirected := by
  rw [redirections, isParameter]
  rfl

/-- The edits that make a class of a component, by what they are for. -/
inductive IsEditOf (program : Program) (candidate : Candidate) (place : Place) (edit : Edit) : Prop
  | redirects {parameter : String} {use : Reference} {below : Place}
      (redirects : Redirects program candidate place edit parameter use below)
  | opens (isSpan : edit.span = ⟨candidate.start, candidate.body.span.start⟩)
  | shifts {line : Nat} (isLine : line ∈ shiftedLines program.source candidate)
      (isSpan : edit.span = ⟨line, line⟩)
  | closes (isSpan : edit.span = ⟨candidate.body.span.stop, candidate.stop⟩)

/-- The layout of a class: its head, the shift of the lines, and its end. -/
theorem exists_layoutEdits (source : List Char) (style : Style) (base : List Char)
    (candidate : Candidate) :
    ∃ header shift footer, layoutEdits source style base candidate =
      .replace ⟨candidate.start, candidate.body.span.start⟩ header ::
        ((shiftedLines source candidate).map fun line => .insert line shift) ++
        [.replace ⟨candidate.body.span.stop, candidate.stop⟩ footer] := by
  rw [layoutEdits]
  split
  exact ⟨_, _, _, rfl⟩

/-- A use is replaced alone, or with a property around it that is only a name. -/
theorem referenceEdit_cases (survey : Context.Survey) (parameter : String) (use : Span) :
    (referenceEdit survey parameter use = .replace use "this.props".toList ∧
      ∀ property ∈ survey.shorthands, property.contains use = false) ∨
    ∃ property ∈ survey.shorthands, property.contains use = true ∧
      referenceEdit survey parameter use =
        .replace property (parameter.toList ++ ": this.props".toList) := by
  unfold referenceEdit
  split
  · next property isProperty =>
    have inside := List.find?_some isProperty
    exact Or.inr ⟨property, List.mem_of_find?_eq_some isProperty, inside, rfl⟩
  · next noProperty =>
    refine Or.inl ⟨rfl, fun property isProperty => ?_⟩
    exact Bool.eq_false_iff.mpr (List.find?_eq_none.mp noProperty property isProperty)

/-- What a component looks for in its body stands in the body. -/
theorem StandsAt.at?_below_body
    (stands : StandsAt program.root statement candidate place parts) {path : Place} {node : Node}
    (reached : candidate.body.at? path = some node) :
    program.root.at? (StandsAt.bodyPlace place parts ++ path) = some node := by
  rw [Node.at?_append, stands.at?_body]
  exact reached

section

variable (stands : StandsAt program.root statement candidate place parts)
    (spelled : program.IsSpelled)
include stands spelled

/-- The function that is found by its span is the one at its place. -/
theorem StandsAt.exists_function :
    ∃ function, ((ofProgram program.root).functions.find? fun function =>
        function.span == candidate.arrow) = some function ∧
      program.root.openings[function.scope]? = some (place ++ [0, 1]) := by
  obtain ⟨notEmpty, hasBody⟩ :=
    Node.arrow_of_isLegible (Node.isLegible_at? spelled.legible stands.at?_arrow)
  obtain ⟨_, _, _, _, _, shows⟩ := stands.declaration
  have isShape : (Node.mk (.arrow candidate.isAsync candidate.hasExpressionBody) candidate.arrow
      parts).shape?.isSome = true := by
    rw [Node.isSome_shape?]
    cases isExpression : candidate.hasExpressionBody with
    | true => exact Option.isSome_of_eq_some shows.isBody
    | false =>
      rw [isExpression] at hasBody
      rcases hasBody with isExpression | ⟨body, isLast, isKind⟩
      · cases isExpression
      · refine List.find?_isSome.mpr ⟨body, List.mem_of_getLast? isLast, ?_⟩
        rw [isKind]
        rfl
  obtain ⟨shape, isShape⟩ := Option.isSome_iff_exists.mp isShape
  exact find?_functions spelled.isText spelled.shaped spelled.nested stands.at?_arrow isShape
    notEmpty fun _ _ isAbove isElsewhere reached =>
      stands.isOutermost spelled.isText isAbove isElsewhere reached

/-- A reference lies in the scope of a component exactly if it stands in its arrow function. -/
theorem StandsAt.exists_place_of_reference {id : ScopeId}
    (isPlace : program.root.openings[id]? = some (place ++ [0, 1])) {reference : Reference}
    (isReference : reference ∈ (ofProgram program.root).references) :
    ∃ below, program.root.at? below = some (.mk (.reference reference.name) reference.span []) ∧
      ((ofProgram program.root).isWithin reference.scope id = true ↔
        place ++ [0, 1] <+: below) := by
  obtain ⟨below, outer, reached, isOuter, isInnermost⟩ :=
    ScopeTable.exists_place_of_reference spelled.isText spelled.shaped isReference
  refine ⟨below, reached, isWithin_iff_isPrefix spelled.shaped stands.at?_arrow rfl isPlace reached
    ?_ isInnermost isOuter⟩
  rintro rfl
  rw [stands.at?_arrow] at reached
  cases reached

theorem StandsAt.exists_redirects {parameter : String} {id : ScopeId} {use : Reference}
    (isParameter : parameter? candidate.parameters.children = .ok (some parameter))
    (isPlace : program.root.openings[id]? = some (place ++ [0, 1]))
    (isUse : use ∈ uses (ofProgram program.root) id parameter) :
    ∃ below, Redirects program candidate place
      (referenceEdit candidate.survey parameter use.span) parameter use below := by
  obtain ⟨isReference, rfl, isWithin⟩ := mem_uses_iff.mp isUse
  obtain ⟨below, reached, isBelow⟩ := stands.exists_place_of_reference spelled isPlace isReference
  exact ⟨below, isParameter, isReference, reached, isBelow.mp isWithin, rfl⟩

theorem exists_redirects_of_mem
    (isRedirected : redirections (ofProgram program.root) candidate = .ok redirected)
    (isEdit : edit ∈ redirected) :
    ∃ parameter use below, Redirects program candidate place edit parameter use below := by
  cases isParameter : parameter? candidate.parameters.children with
  | error reason =>
    rw [redirections, isParameter] at isRedirected
    cases isRedirected
  | ok found =>
    cases found with
    | none =>
      rw [redirections, isParameter] at isRedirected
      cases isRedirected
      cases isEdit
    | some parameter =>
      obtain ⟨function, isFunction, isPlace⟩ := stands.exists_function spelled
      rw [redirections_eq_ok_iff isParameter, parameterEdits_eq_ok_iff isFunction] at isRedirected
      obtain ⟨_, _, rfl⟩ := isRedirected
      obtain ⟨use, isUse, rfl⟩ := List.mem_map.mp isEdit
      obtain ⟨below, redirects⟩ := stands.exists_redirects spelled isParameter isPlace isUse
      exact ⟨parameter, use, below, redirects⟩

/-- A property that a component has found to be only a name. -/
theorem StandsAt.exists_shorthand {property : Span}
    (isProperty : property ∈ candidate.survey.shorthands) :
    ∃ path word, candidate.body.at? path = some word ∧ word.kind.isShorthand = true ∧
      word.span = property ∧ candidate.body.isSurveyed path = true := by
  obtain ⟨_, _, _, _, _, shows⟩ := stands.declaration
  rw [shows.isSurvey] at isProperty
  exact (Context.mem_shorthands_survey_iff
    (Node.isLegible_at? spelled.legible stands.at?_body)).mp isProperty

theorem StandsAt.isRange_body : IsRange program.source candidate.body.span :=
  Node.isRange_span (Node.isNested_at? spelled.nested stands.at?_body)
    (Node.isInText_at? spelled.inText stands.at?_body)

theorem StandsAt.startsInkedLine {line : Nat}
    (isLine : line ∈ shiftedLines program.source candidate) :
    Text.StartsInkedLine program.source candidate.body.span.start candidate.body.span.stop line :=
  (Text.mem_lineStartsWithin_iff (Or.inl (stands.isRange_body spelled).startBoundary)
    (Or.inl (stands.isRange_body spelled).stopBoundary)).1 (List.mem_filter.mp isLine).1

/-- A line that is shifted starts in the body. -/
theorem StandsAt.line_in_body {line : Nat} (isLine : line ∈ shiftedLines program.source candidate) :
    candidate.body.span.start < line ∧ line ≤ candidate.body.span.stop := by
  have starts := stands.startsInkedLine spelled isLine
  exact ⟨starts.behind, Nat.le_of_lt (Nat.lt_of_lt_of_le starts.before (Nat.min_le_left _ _))⟩

end

theorem Converts.isEditOf (converts : Converts program options statement candidate edits)
    (stands : StandsAt program.root statement candidate place parts)
    (spelled : program.IsSpelled) (isEdit : edit ∈ edits) :
    IsEditOf program candidate place edit := by
  obtain ⟨_, _, _, redirected, isRedirected, rfl⟩ := conversion_eq_ok_iff.mp converts.isConverted
  rcases List.mem_append.mp isEdit with isUse | isLayout
  · obtain ⟨parameter, use, below, redirects⟩ :=
      exists_redirects_of_mem stands spelled isRedirected isUse
    exact .redirects redirects
  · obtain ⟨header, shift, footer, layout⟩ := exists_layoutEdits program.source options.style
      options.componentBase.toList candidate
    rw [layout] at isLayout
    rcases List.mem_append.mp isLayout with isEarly | isLast
    · rcases List.mem_cons.mp isEarly with rfl | isShift
      · exact .opens rfl
      · obtain ⟨line, isLine, rfl⟩ := List.mem_map.mp isShift
        exact .shifts isLine rfl
    · obtain rfl := List.mem_singleton.mp isLast
      exact .closes rfl

namespace Redirects

variable {parameter : String} {use : Reference} {below : Place}

section

variable (redirects : Redirects program candidate place edit parameter use below)
include redirects

/-- A use takes up room. -/
theorem notEmpty (spelled : program.IsSpelled) : use.span.start < use.span.stop :=
  (Node.reference_of_isLegible (Node.isLegible_at? spelled.legible redirects.reached)).1

/-- A use is redirected where it stands, also if it stands for a property. -/
theorem span_eq (stands : StandsAt program.root statement candidate place parts)
    (spelled : program.IsSpelled) : edit.span = use.span := by
  rw [redirects.isEdit]
  rcases referenceEdit_cases candidate.survey parameter use.span with
    ⟨isAlone, _⟩ | ⟨property, isProperty, inside, isWhole⟩
  · rw [isAlone]
    rfl
  · obtain ⟨path, word, reached, isShorthand, rfl, _⟩ := stands.exists_shorthand spelled isProperty
    obtain ⟨isComputed, isKind⟩ := Kind.isShorthand_iff.mp isShorthand
    have isWord := stands.at?_below_body reached
    have isBelow := Node.isPrefix_of_contains_leaf spelled.nested isWord redirects.reached rfl
      inside (redirects.notEmpty spelled)
    rw [isWhole]
    rcases Node.place_below_shorthand spelled.legible isWord isKind redirects.reached isBelow with
      same | ⟨_, name, isName⟩
    · have isUse := redirects.reached
      rw [same, isWord, Option.some.injEq] at isUse
      rw [isUse] at isKind
      cases isKind
    · exact (congrArg Node.span isName).symm

/-- A use is redirected inside the arrow function. -/
theorem contains (stands : StandsAt program.root statement candidate place parts)
    (spelled : program.IsSpelled) :
    candidate.arrow.contains edit.span = true ∧ edit.start ≤ edit.stop := by
  have isSpan := redirects.span_eq stands spelled
  have forward : edit.span.start ≤ edit.span.stop := by
    rw [isSpan]
    exact Nat.le_of_lt (redirects.notEmpty spelled)
  rw [isSpan]
  exact ⟨Node.contains_below spelled.nested stands.at?_arrow redirects.reached redirects.isBelow,
    forward⟩

end

end Redirects

/-- The edits of a component lie in its statement. -/
theorem IsEditOf.contains (isEditOf : IsEditOf program candidate place edit)
    (stands : StandsAt program.root statement candidate place parts)
    (spelled : program.IsSpelled) :
    statement.span.contains edit.span = true ∧ edit.start ≤ edit.stop := by
  obtain ⟨start, arrow, head, body, foot, stop, last⟩ := stands.bounds spelled.nested
  have within : ∀ {first second : Nat}, edit.span = ⟨first, second⟩ →
      statement.span.start ≤ first → first ≤ second → second ≤ statement.span.stop →
      statement.span.contains edit.span = true ∧ edit.start ≤ edit.stop := by
    intro first second isSpan lower forward upper
    have isStart : edit.start = first := congrArg Span.start isSpan
    have isStop : edit.stop = second := congrArg Span.stop isSpan
    rw [isSpan, Span.contains_iff, isStart, isStop]
    exact ⟨⟨lower, upper⟩, forward⟩
  cases isEditOf with
  | redirects redirects =>
    obtain ⟨inArrow, forward⟩ := redirects.contains stands spelled
    rw [Span.contains_iff] at inArrow ⊢
    exact ⟨⟨by omega, by omega⟩, forward⟩
  | opens isSpan => exact within isSpan start (by omega) (by omega)
  | shifts isLine isSpan =>
    have bounds := stands.line_in_body spelled isLine
    exact within isSpan (by omega) (Nat.le_refl _) (by omega)
  | closes isSpan => exact within isSpan (by omega) (by omega) (by omega)

/-! ## The edits of a text -/

end Component

/-- Whether a node of this kind imports names. -/
def Kind.isImport : Kind → Bool
  | importDeclaration _ _ => true
  | _ => false

namespace Component

variable {program : Program} {options : TransformOptions} {statement : Node}
  {candidate : Candidate} {edits : List Edit} {edit : Edit} {span : Span}

theorem isImport_of_loneCandidate? (isLone : loneCandidate? statement = some candidate) :
    statement.kind.isImport = false := by
  obtain ⟨way, _, isWay, ⟨_, _, _, _, reached, _⟩, _⟩ := standsIn_of_loneCandidate? isLone
  rcases isWay with rfl | ⟨_, isExport⟩
  · rw [Node.at?_nil] at reached
    cases reached
    rfl
  · rw [isExport]
    rfl

/-- An import is extended behind one of its parts. -/
theorem extendedImport?_inside (nested : statement.isNested = true)
    (isEdit : extendedImport? options statement = some edit) :
    statement.kind.isImport = true ∧ edit.start = edit.stop ∧
      statement.span.contains edit.span = true := by
  have behind : ∀ part ∈ statement.children,
      statement.span.start ≤ part.span.stop ∧ part.span.stop ≤ statement.span.stop := by
    intro part isPart
    have inside := Span.contains_iff.mp (Node.contains_of_mem_children nested isPart)
    have forward := Node.start_le_stop (Node.isNested_of_mem_children nested isPart)
    omega
  unfold extendedImport? at isEdit
  split at isEdit
  · next source span children =>
    split at isEdit
    · cases isEdit
    · simp only at isEdit
      split at isEdit
      · next last isLast =>
        cases isEdit
        have isPart := (List.mem_filter.mp (List.mem_of_getLast? isLast)).1
        exact ⟨rfl, rfl, Span.contains_iff.mpr (behind last isPart)⟩
      · next inner parts _ isOnly =>
        cases isEdit
        have isPart : Node.mk .importDefault inner parts ∈ children := by
          have isKept := List.mem_singleton_self (Node.mk .importDefault inner parts)
          rw [← isOnly] at isKept
          exact (List.mem_filter.mp isKept).1
        exact ⟨rfl, rfl, Span.contains_iff.mpr (behind _ isPart)⟩
      · cases isEdit
  · cases isEdit

/-- An edit inserts something in a statement, but not inside one that imports nothing. -/
structure IsBetween (statements : List Node) (edit : Edit) : Prop where
  isEmpty : edit.start = edit.stop
  inside : ∃ statement ∈ statements, statement.span.contains edit.span = true
  apart : ∀ statement ∈ statements, statement.kind.isImport = false →
    edit.span.isApart statement.span = true

theorem isBetween_of_import {statements : List Node}
    (ordered : statements.Pairwise fun earlier later => earlier.span.stop ≤ later.span.start)
    (isStatement : statement ∈ statements) (isImport : statement.kind.isImport = true)
    (isEmpty : edit.start = edit.stop) (inside : statement.span.contains edit.span = true) :
    IsBetween statements edit where
  isEmpty := isEmpty
  inside := ⟨statement, isStatement, inside⟩
  apart := by
    intro other isOther notImport
    have different : statement ≠ other := by
      rintro rfl
      rw [isImport] at notImport
      cases notImport
    exact Span.isApart_of_contains (Node.isApart_of_ne ordered isStatement isOther different) inside
      (Span.contains_refl _)

/-- The base class is imported between the statements that import nothing. -/
theorem isBetween_of_mem_importEdits (nested : program.root.isNested = true)
    (isEdit : edit ∈ importEdits program options) :
    IsBetween program.root.bodyStatements edit := by
  have ordered := Node.ordered_bodyStatements nested
  have statementNested : ∀ other ∈ program.root.bodyStatements, other.isNested = true :=
    fun other isOther => Node.isNested_of_mem_children nested (List.mem_filter.mp isOther).1
  have isImported : baseImport? program options (ofProgram program.root) = some edit := by
    unfold importEdits at isEdit
    simp only at isEdit
    split at isEdit
    · exact Option.mem_toList.mp isEdit
    · cases isEdit
  simp only [baseImport?] at isImported
  split at isImported
  · cases isImported
  · split at isImported
    · next extended isExtended =>
      cases isImported
      obtain ⟨other, isOther, isEdit⟩ := List.exists_of_findSome?_eq_some isExtended
      obtain ⟨isImport, isEmpty, inside⟩ :=
        extendedImport?_inside (statementNested other isOther) isEdit
      exact isBetween_of_import ordered isOther isImport isEmpty inside
    · split at isImported
      · next stop isLast =>
        cases isImported
        obtain ⟨other, isOther, rfl⟩ := Option.map_eq_some_iff.mp isLast
        obtain ⟨isOther, isImport⟩ := List.mem_filter.mp (List.mem_of_getLast? isOther)
        refine isBetween_of_import ordered isOther isImport rfl ?_
        exact Span.contains_iff.mpr
          ⟨Node.start_le_stop (statementNested other isOther), Nat.le_refl _⟩
      · obtain ⟨first, isFirst, rfl⟩ := Option.map_eq_some_iff.mp isImported
        have isOther := List.mem_of_mem_head? isFirst
        refine ⟨rfl, ⟨first, isOther, ?_⟩, fun other isAnother _ => ?_⟩
        · exact Span.contains_iff.mpr
            ⟨Nat.le_refl _, Node.start_le_stop (statementNested first isOther)⟩
        · exact Span.isApart_iff.mpr (Or.inl (Node.head_start_le nested isFirst isAnother))

/-- The edits that are planned for a statement lie in it. -/
theorem contains_of_mem_statementEdits (spelled : program.IsSpelled)
    (isStatement : statement ∈ program.root.bodyStatements)
    (isEdit : edit ∈ statementEdits program options statement) :
    statement.span.contains edit.span = true ∧ edit.start ≤ edit.stop := by
  obtain ⟨candidate, converts⟩ := exists_converts_of_mem isStatement isEdit
  obtain ⟨place, parts, stands⟩ := exists_standsAt isStatement converts.isLone
  exact (converts.isEditOf stands spelled isEdit).contains stands spelled

/-- The edits of a text are carried out on a part of it. -/
theorem inside_of_mem_plan (spelled : program.IsSpelled)
    (isEdit : edit ∈ (plan program options).edits) :
    edit.start ≤ edit.stop ∧ edit.stop ≤ Text.byteLength program.source := by
  have inText : ∀ other ∈ program.root.bodyStatements,
      other.span.contains edit.span = true → edit.stop ≤ Text.byteLength program.source := by
    intro other isOther inside
    have isChild := (List.mem_filter.mp isOther).1
    have range := Node.isRange_span (Node.isNested_of_mem_children spelled.nested isChild)
      (Node.isInText_of_mem_children spelled.inText isChild)
    exact Nat.le_trans (Span.contains_iff.mp inside).2 range.inside
  rw [edits_plan, List.mem_append] at isEdit
  rcases isEdit with isPlanned | isImported
  · obtain ⟨other, isOther, isEdit⟩ := List.mem_flatMap.mp isPlanned
    obtain ⟨inside, forward⟩ := contains_of_mem_statementEdits spelled isOther isEdit
    exact ⟨forward, inText other isOther inside⟩
  · obtain ⟨isEmpty, ⟨other, isOther, inside⟩, _⟩ :=
      isBetween_of_mem_importEdits spelled.nested isImported
    exact ⟨Nat.le_of_eq isEmpty, inText other isOther inside⟩

theorem touching_eq_nil {planned : List Edit} {outer : Span}
    (apart : ∀ edit ∈ planned, edit.span.isApart outer = true)
    (inside : outer.contains span = true) : touching span planned = [] := by
  refine List.filter_eq_nil_iff.mpr fun edit isEdit => ?_
  rw [Span.isApart_of_contains (apart edit isEdit) (Span.contains_refl _) inside]
  exact Bool.false_ne_true

/-- What touches a range of a statement is planned for the statement. -/
theorem touching_plan (spelled : program.IsSpelled)
    (isStatement : statement ∈ program.root.bodyStatements)
    (notImport : statement.kind.isImport = false) (inside : statement.span.contains span = true) :
    touching span (plan program options).edits =
      touching span (statementEdits program options statement) := by
  have ordered := Node.ordered_bodyStatements spelled.nested
  have apart : ∀ edit ∈ importEdits program options, edit.span.isApart statement.span = true :=
    fun edit isEdit =>
      (isBetween_of_mem_importEdits spelled.nested isEdit).apart statement isStatement notImport
  obtain ⟨before, after, isSplit⟩ := List.append_of_mem isStatement
  rw [isSplit, List.pairwise_append, List.pairwise_cons] at ordered
  have others : ∀ {statements : List Node},
      (∀ other ∈ statements, other ∈ program.root.bodyStatements ∧
        other.span.isApart statement.span = true) →
      ∀ edit ∈ statements.flatMap (statementEdits program options),
        edit.span.isApart statement.span = true := by
    intro statements each edit isEdit
    obtain ⟨other, isOther, isEdit⟩ := List.mem_flatMap.mp isEdit
    obtain ⟨isListed, otherApart⟩ := each other isOther
    exact Span.isApart_of_contains otherApart
      (contains_of_mem_statementEdits spelled isListed isEdit).1 (Span.contains_refl _)
  have earlier : ∀ edit ∈ before.flatMap (statementEdits program options),
      edit.span.isApart statement.span = true := by
    refine others fun other isOther => ⟨?_, ?_⟩
    · rw [isSplit]
      exact List.mem_append_left _ isOther
    · exact Span.isApart_iff.mpr (Or.inl (ordered.2.2 other isOther statement List.mem_cons_self))
  have later : ∀ edit ∈ after.flatMap (statementEdits program options),
      edit.span.isApart statement.span = true := by
    refine others fun other isOther => ⟨?_, ?_⟩
    · rw [isSplit]
      exact List.mem_append_right _ (List.mem_cons_of_mem _ isOther)
    · exact Span.isApart_iff.mpr (Or.inr (ordered.2.1.1 other isOther))
  rw [edits_plan, isSplit, List.flatMap_append, List.flatMap_cons, touching_append,
    touching_append, touching_append, touching_eq_nil earlier inside, touching_eq_nil later inside,
    touching_eq_nil apart inside, List.nil_append, List.append_nil, List.append_nil]

end Component

end Codemod
