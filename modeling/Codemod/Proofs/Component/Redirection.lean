import Codemod.Proofs.Component.Parameter

/-!
# Uses of the parameter of a component

When a component becomes a class, each use of its parameter in the body is pointed
at the properties of the class by an edit of its own, and no other edit touches the
use.  A use in the head of the function is edited too, but the new head of the class
takes its place.  Nothing else that has a name is edited, except for the type of the
declared name, which is lost with the head (`parameter_uses_are_redirected`).
-/

namespace Codemod

open Edit ScopeTable

namespace Component

variable {program : Program} {options : TransformOptions} {statement : Node}
  {candidate : Candidate} {place : Place} {parts : List Node} {edits : List Edit} {edit : Edit}
  {parameter name : String} {id : ScopeId} {below : Place} {use : Span}

/-! ## Uses stand apart -/

theorem touches_of_contains {first second inner : Span} (notEmpty : inner.start < inner.stop)
    (inFirst : first.contains inner = true) (inSecond : second.contains inner = true) :
    (!first.isApart second) = true := by
  rw [Bool.not_eq_true', ← Bool.not_eq_true]
  exact Span.not_isApart_of_contains notEmpty inFirst inSecond

/-- Of edits that stand apart from one another, only the edit itself touches its range. -/
theorem touching_eq_singleton {planned : List Edit} (isEdit : edit ∈ planned)
    (notEmpty : edit.span.start < edit.span.stop)
    (apart : planned.Pairwise fun first second => first.span.isApart second.span = true) :
    touching edit.span planned = [edit] := by
  obtain ⟨before, after, rfl⟩ := List.append_of_mem isEdit
  rw [List.pairwise_append, List.pairwise_cons] at apart
  obtain ⟨_, ⟨isBehind, _⟩, isBefore⟩ := apart
  have noEarlier := touching_eq_nil (fun other isOther =>
    isBefore other isOther edit List.mem_cons_self) (Span.contains_refl edit.span)
  have noLater := touching_eq_nil (fun other isOther =>
    Span.isApart_symm (isBehind other isOther)) (Span.contains_refl edit.span)
  have isNear := touches_of_contains notEmpty (Span.contains_refl _) (Span.contains_refl _)
  rw [touching_append, noEarlier, List.nil_append, touching, List.filter_cons, if_pos isNear]
  exact congrArg (edit :: ·) noLater

/-- The layout of a class is its head and what is changed behind it. -/
theorem exists_header (source : List Char) (style : Style) (base : List Char)
    (candidate : Candidate) :
    ∃ header rest, layoutEdits source style base candidate = header :: rest ∧
      header.span = ⟨candidate.start, candidate.body.span.start⟩ ∧
      ∀ edit ∈ rest, (∃ line ∈ shiftedLines source candidate, edit.span = ⟨line, line⟩) ∨
        edit.span = ⟨candidate.body.span.stop, candidate.stop⟩ := by
  obtain ⟨header, shift, footer, layout⟩ := exists_layoutEdits source style base candidate
  refine ⟨_, _, layout, rfl, fun edit isEdit => ?_⟩
  rcases List.mem_append.mp isEdit with isShift | isLast
  · obtain ⟨line, isLine, rfl⟩ := List.mem_map.mp isShift
    exact Or.inl ⟨line, isLine, rfl⟩
  · obtain rfl := List.mem_singleton.mp isLast
    exact Or.inr rfl

/-- Two names at different places stand apart. -/
theorem isApart_of_references (spelled : program.IsSpelled) {other : Place} {word : String}
    {span : Span} (reached : program.root.at? below = some (.mk (.reference name) use []))
    (isOther : program.root.at? other = some (.mk (.reference word) span []))
    (different : below ≠ other) : use.isApart span = true := by
  rcases Node.isPrefix_or_isApart spelled.nested reached isOther with isBelow | isAbove | apart
  · exact absurd (Node.eq_of_isPrefix_of_leaf reached rfl isOther isBelow) different
  · exact absurd (Node.eq_of_isPrefix_of_leaf isOther rfl reached isAbove).symm different
  · exact apart

/-- The edits that redirect the uses of a parameter. -/
abbrev useEdits (program : Program) (candidate : Candidate) (id : ScopeId) (parameter : String) :
    List Edit :=
  (uses (ofProgram program.root) id parameter).map fun use =>
    referenceEdit candidate.survey parameter use.span

/-- They stand apart from one another. -/
theorem StandsAt.pairwise_isApart (stands : StandsAt program.root statement candidate place parts)
    (spelled : program.IsSpelled)
    (isParameter : parameter? candidate.parameters.children = .ok (some parameter))
    (isPlace : program.root.openings[id]? = some (place ++ [0, 1])) :
    (useEdits program candidate id parameter).Pairwise fun first second =>
      first.span.isApart second.span = true := by
  have distinct : (uses (ofProgram program.root) id parameter).Pairwise
      fun first second => first.span ≠ second.span :=
    (pairwise_span_ne_of_references spelled.isText spelled.shaped spelled.nested
      spelled.legible).filter _
  rw [List.pairwise_map]
  refine List.Pairwise.imp_of_mem ?_ distinct
  intro first second isFirst isSecond different
  obtain ⟨below, redirects⟩ := stands.exists_redirects spelled isParameter isPlace isFirst
  obtain ⟨other, others⟩ := stands.exists_redirects spelled isParameter isPlace isSecond
  rw [redirects.span_eq stands spelled, others.span_eq stands spelled]
  refine isApart_of_references spelled redirects.reached others.reached ?_
  rintro rfl
  have same := Option.some.inj (redirects.reached.symm.trans others.reached)
  exact different (congrArg Node.span same)

/-! ## Uses in the head and in the body -/

section

variable (stands : StandsAt program.root statement candidate place parts)
    (spelled : program.IsSpelled)
include stands spelled

/-- The declared name stands at the start of the variables and before the arrow function. -/
theorem StandsAt.exists_name : ∃ declared, program.root.at? (place ++ [0, 0]) = some declared ∧
      candidate.start < declared.span.stop ∧ declared.span.stop ≤ candidate.arrow.start := by
  obtain ⟨_, _, declarator, isStart, isDeclaration, shows⟩ := stands.declaration
  obtain ⟨_, name, own, types, _, isDeclarator⟩ := shows.shape
  have atDeclarator : program.root.at? (place ++ [0]) = some declarator :=
    Node.at?_part isDeclaration rfl
  have nested := Node.isNested_at? spelled.nested atDeclarator
  have isName : declarator.children[0]? = some (.mk (.binding name) own types) := by
    rw [isDeclarator]
    rfl
  have isArrow : declarator.children[1]? = some
      (.mk (.arrow candidate.isAsync candidate.hasExpressionBody) candidate.arrow parts) := by
    rw [isDeclarator]
    rfl
  have atName := Node.at?_part atDeclarator isName
  rw [List.append_assoc] at atName
  have inside := Span.contains_iff.mp (Node.contains_below spelled.nested isDeclaration atName
    (List.prefix_append _ _))
  have notEmpty := Node.binding_of_isLegible (Node.isLegible_at? spelled.legible atName)
  refine ⟨_, atName, ?_, Node.stop_le_start nested isName isArrow Nat.zero_lt_one⟩
  rw [← isStart]
  exact Nat.lt_of_le_of_lt inside.1 notEmpty

/-- A use in the arrow function of a component stands in the body or in the head before it. -/
theorem StandsAt.isPrefix_or_head
    (reached : program.root.at? below = some (.mk (.reference name) use []))
    (isBelow : place ++ [0, 1] <+: below) :
    StandsAt.bodyPlace place parts <+: below ∨ ¬ StandsAt.bodyPlace place parts <+: below ∧
      candidate.start < use.start ∧ use.stop ≤ candidate.body.span.start := by
  by_cases inBody : StandsAt.bodyPlace place parts <+: below
  · exact Or.inl inBody
  obtain ⟨declared, _, lower, upper⟩ := stands.exists_name spelled
  have inArrow := Span.contains_iff.mp
    (Node.contains_below spelled.nested stands.at?_arrow reached isBelow)
  have before : candidate.start < use.start :=
    Nat.lt_of_lt_of_le lower (Nat.le_trans upper inArrow.1)
  obtain ⟨_, _, _, _, _, shows⟩ := stands.declaration
  have isLast := shows.isBody
  rw [List.getLast?_eq_getElem?] at isLast
  obtain ⟨rest, rfl⟩ := isBelow
  rw [Node.at?_append, stands.at?_arrow, Option.bind_some] at reached
  rcases rest with _ | ⟨index, rest⟩
  · rw [Node.at?_nil] at reached
    cases reached
  obtain ⟨part, isPart, deeper⟩ := Node.at?_cons_eq_some_iff.mp reached
  have isOther : index ≠ parts.length - 1 := by
    rintro rfl
    exact inBody ⟨rest, by rw [StandsAt.bodyPlace, List.append_assoc _ [_], List.singleton_append]⟩
  obtain ⟨isIndex, _⟩ := List.getElem?_eq_some_iff.mp isPart
  have nested := Node.isNested_at? spelled.nested stands.at?_arrow
  have ordered := Node.stop_le_start nested isPart isLast (by omega)
  have inPart := Span.contains_iff.mp (Node.contains_at?
    (Node.isNested_of_mem_children nested (List.mem_of_getElem? isPart)) deeper)
  exact Or.inr ⟨inBody, before, Nat.le_trans inPart.2 ordered⟩

/-- What is changed behind the head of a class touches no use. -/
theorem StandsAt.isApart_behind_header
    (reached : program.root.at? below = some (.mk (.reference name) use []))
    (upper : use.stop ≤ candidate.body.span.stop)
    (isBehind : (∃ line ∈ shiftedLines program.source candidate, edit.span = ⟨line, line⟩) ∨
      edit.span = ⟨candidate.body.span.stop, candidate.stop⟩) :
    edit.span.isApart use = true := by
  rcases isBehind with ⟨line, isLine, isSpan⟩ | isSpan
  · have oneLine := (Node.reference_of_isLegible (Node.isLegible_at? spelled.legible reached)).2.1
    have range := Node.isRange_span (Node.isNested_at? spelled.nested reached)
      (Node.isInText_at? spelled.inText reached)
    rw [isSpan, Span.isApart_iff]
    rcases Text.le_or_lt_of_not_isMultiline (stands.startsInkedLine spelled isLine) range
      oneLine with isBefore | isAfter
    · exact Or.inl isBefore
    · exact Or.inr (Nat.le_of_lt isAfter)
  · rw [isSpan, Span.isApart_iff]
    exact Or.inr upper

/-- A name in the arrow function of a component is in the scope of the function. -/
theorem StandsAt.exists_use (isPlace : program.root.openings[id]? = some (place ++ [0, 1]))
    {children : List Node}
    (reached : program.root.at? below = some (.mk (.reference parameter) use children))
    (isBelow : place ++ [0, 1] <+: below) :
    ∃ reference ∈ uses (ofProgram program.root) id parameter, reference.span = use := by
  have isElsewhere : place ++ [0, 1] ≠ below := by
    rintro rfl
    rw [stands.at?_arrow] at reached
    cases reached
  have isOpen := Node.mem_scopesAt_of_isFunction stands.at?_arrow rfl reached isBelow isElsewhere
  cases isInnermost : program.root.innermost? below with
  | none =>
    rw [List.head?_eq_none_iff.mp isInnermost] at isOpen
    cases isOpen
  | some outer =>
    obtain ⟨inner, isInner⟩ := List.getElem?_of_mem
      (Node.mem_openings_of_mem_scopesAt (List.mem_of_head? isInnermost))
    obtain ⟨reference, isReference, isName, isSpan, rfl⟩ :=
      exists_reference_of_place spelled.isText spelled.shaped reached isInner isInnermost
    have isWithin := (isWithin_iff_isPrefix spelled.shaped stands.at?_arrow rfl isPlace reached
      isElsewhere isInnermost isInner).mpr isBelow
    exact ⟨reference, mem_uses_iff.mpr ⟨isReference, isName, isWithin⟩, isSpan⟩

theorem StandsAt.isRange_head :
    IsRange program.source ⟨candidate.start, candidate.body.span.start⟩ := by
  obtain ⟨_, span, _, isStart, isDeclaration, _⟩ := stands.declaration
  have range := Node.isRange_span (Node.isNested_at? spelled.nested isDeclaration)
    (Node.isInText_at? spelled.inText isDeclaration)
  have bodyRange := stands.isRange_body spelled
  obtain ⟨_, arrow, head, _⟩ := stands.bounds spelled.nested
  exact ⟨Nat.le_trans arrow head, Nat.le_trans bodyRange.forward bodyRange.inside,
    isStart ▸ range.startBoundary, bodyRange.startBoundary⟩

end

/-! ## What becomes of uses -/

/--
What the edits of a text make of a use of the parameter.  In the body there is one
edit.  In the head there is another one, which is lost to the new head of the class.
-/
inductive IsEdited (program : Program) (planned : List Edit) (candidate : Candidate)
    (body : Place) (parameter : String) (use : Span) (below : Place) : Prop
  | inBody {path : Place} (isBelow : below = body ++ path)
      (only : touching use planned = [redirection candidate.body path parameter use])
      (becomes : Becomes program.source planned use
        (redirection candidate.body path parameter use).text)
  | inHead {header : Edit} (isOutside : ¬ body <+: below)
      (isSpan : header.span = ⟨candidate.start, candidate.body.span.start⟩)
      (both : touching use planned = [.replace use "this.props".toList, header])
      (isLost : .replace use "this.props".toList ∈ (applyEdits program.source planned).dropped)

variable {function : FunctionRecord}

/--
The edits of a component with a parameter: its uses are redirected, and there are
the head of the class and what is changed behind the head.
-/
structure Lays (program : Program) (candidate : Candidate) (id : ScopeId) (parameter : String)
    (edits : List Edit) (header : Edit) (rest : List Edit) : Prop where
  isEdits : edits = ((uses (ofProgram program.root) id parameter).map fun use =>
    referenceEdit candidate.survey parameter use.span) ++ ([header] ++ rest)
  isSpan : header.span = ⟨candidate.start, candidate.body.span.start⟩
  behind : ∀ edit ∈ rest,
    (∃ line ∈ shiftedLines program.source candidate, edit.span = ⟨line, line⟩) ∨
      edit.span = ⟨candidate.body.span.stop, candidate.stop⟩

/-- All that holds of the parameter of a component that is converted. -/
theorem Converts.of_parameter (converts : Converts program options statement candidate edits)
    (isParameter : parameter? candidate.parameters.children = .ok (some parameter))
    (isFunction : ((ofProgram program.root).functions.find? fun function =>
      function.span == candidate.arrow) = some function) :
    ((ofProgram program.root).declarationsWithin function.scope parameter).length ≤ 1 ∧
    (∀ use ∈ uses (ofProgram program.root) function.scope parameter, use.access ≠ .write ∧
      (ofProgram program.root).thisScope use.scope =
        (ofProgram program.root).thisScope function.scope) ∧
    ∃ header rest, Lays program candidate function.scope parameter edits header rest := by
  obtain ⟨_, _, _, redirected, isRedirected, rfl⟩ := conversion_eq_ok_iff.mp converts.isConverted
  rw [redirections_eq_ok_iff isParameter, parameterEdits_eq_ok_iff isFunction] at isRedirected
  obtain ⟨single, allowed, rfl⟩ := isRedirected
  obtain ⟨header, rest, layout, isSpan, behind⟩ := exists_header program.source options.style
    options.componentBase.toList candidate
  exact ⟨single, allowed, header, rest, congrArg _ layout, isSpan, behind⟩

variable {header : Edit} {rest : List Edit}

section

variable (lays : Lays program candidate id parameter edits header rest)
include lays

/-- What touches the head is the edits of the uses in it, and the head itself. -/
theorem Lays.touching_header (converts : Converts program options statement candidate edits)
    (stands : StandsAt program.root statement candidate place parts) (spelled : program.IsSpelled)
    (notEmpty : candidate.start < candidate.body.span.start) :
    touching header.span (plan program options).edits =
      touching header.span (useEdits program candidate id parameter) ++ [header] := by
  have isHeader : header ∈ edits := by
    rw [lays.isEdits]
    exact List.mem_append_right _ (List.mem_append_left _ (List.mem_singleton_self header))
  have inStatement := ((converts.isEditOf stands spelled isHeader).contains stands spelled).1
  have isLong : header.span.start < header.span.stop := by
    rw [lays.isSpan]
    exact notEmpty
  have own : touching header.span [header] = [header] :=
    touching_eq_singleton (List.mem_singleton_self header) isLong (List.pairwise_singleton _ _)
  have noRest : touching header.span rest = [] := by
    refine touching_eq_nil (fun edit isEdit => ?_) (Span.contains_refl _)
    rw [lays.isSpan, Span.isApart_iff]
    rcases lays.behind edit isEdit with ⟨line, isLine, isSpan⟩ | isSpan
    · rw [isSpan]
      exact Or.inr (Nat.le_of_lt (stands.line_in_body spelled isLine).1)
    · rw [isSpan]
      exact Or.inr (stands.bounds spelled.nested).body
  rw [touching_plan spelled converts.isStatement (isImport_of_loneCandidate? converts.isLone)
    inStatement, converts.statementEdits_eq, lays.isEdits, touching_append, touching_append, own,
    noRest, List.append_nil]

/-- The edit of a use that touches the head is covered by the head. -/
theorem Lays.covered (stands : StandsAt program.root statement candidate place parts)
    (spelled : program.IsSpelled)
    (isParameter : parameter? candidate.parameters.children = .ok (some parameter))
    (isPlace : program.root.openings[id]? = some (place ++ [0, 1]))
    (isEdit : edit ∈ touching header.span (useEdits program candidate id parameter)) :
    header.start < edit.start ∧ edit.start < header.stop ∧ edit.start ≤ edit.stop ∧
      edit.stop ≤ header.stop := by
  obtain ⟨isListed, isNear⟩ := List.mem_filter.mp isEdit
  obtain ⟨use, isUse, rfl⟩ := List.mem_map.mp isListed
  obtain ⟨below, redirects⟩ := stands.exists_redirects spelled isParameter isPlace isUse
  have isSpan := redirects.span_eq stands spelled
  have isStart : (referenceEdit candidate.survey parameter use.span).start = use.span.start :=
    congrArg Span.start isSpan
  have isStop : (referenceEdit candidate.survey parameter use.span).stop = use.span.stop :=
    congrArg Span.stop isSpan
  have headStart : header.start = candidate.start := congrArg Span.start lays.isSpan
  have headStop : header.stop = candidate.body.span.start := congrArg Span.stop lays.isSpan
  have notEmpty := redirects.notEmpty spelled
  rw [isStart, isStop, headStart, headStop]
  rcases stands.isPrefix_or_head spelled redirects.reached redirects.isBelow with
    inBody | ⟨_, behind, before⟩
  · have inside := Span.contains_iff.mp
      (Node.contains_below spelled.nested stands.at?_body redirects.reached inBody)
    have apart : use.span.isApart header.span = true := by
      rw [lays.isSpan]
      exact Span.isApart_iff.mpr (Or.inr inside.1)
    rw [isSpan, apart] at isNear
    cases isNear
  · exact ⟨behind, Nat.lt_of_lt_of_le notEmpty before, Nat.le_of_lt notEmpty, before⟩

section

variable (converts : Converts program options statement candidate edits)
    (stands : StandsAt program.root statement candidate place parts) (spelled : program.IsSpelled)
    (isParameter : parameter? candidate.parameters.children = .ok (some parameter))
    (isPlace : program.root.openings[id]? = some (place ++ [0, 1]))
include converts stands spelled isParameter isPlace

/-- What touches a use is the edit that redirects it, and the head if the use stands in it. -/
theorem Lays.touching_use {use : Reference}
    (isUse : use ∈ uses (ofProgram program.root) id parameter)
    (redirects : Redirects program candidate place
      (referenceEdit candidate.survey parameter use.span) parameter use below) :
    touching use.span (plan program options).edits =
      referenceEdit candidate.survey parameter use.span :: touching use.span [header] := by
  have isSpan := redirects.span_eq stands spelled
  have notEmpty : (referenceEdit candidate.survey parameter use.span).span.start <
      (referenceEdit candidate.survey parameter use.span).span.stop := by
    rw [isSpan]
    exact redirects.notEmpty spelled
  have own := touching_eq_singleton (List.mem_map_of_mem isUse) notEmpty
    (stands.pairwise_isApart spelled isParameter isPlace)
  rw [isSpan] at own
  have upper : use.span.stop ≤ candidate.body.span.stop := by
    rcases stands.isPrefix_or_head spelled redirects.reached redirects.isBelow with
      inBody | ⟨_, _, before⟩
    · exact (Span.contains_iff.mp
        (Node.contains_below spelled.nested stands.at?_body redirects.reached inBody)).2
    · exact Nat.le_trans before (stands.bounds spelled.nested).body
  have noRest : touching use.span rest = [] := touching_eq_nil (fun edit isEdit =>
    stands.isApart_behind_header spelled redirects.reached upper (lays.behind edit isEdit))
      (Span.contains_refl _)
  have inStatement : statement.span.contains use.span = true :=
    stands.contains_below spelled.nested redirects.reached
      ((List.prefix_append place [0, 1]).trans redirects.isBelow)
  rw [touching_plan spelled converts.isStatement (isImport_of_loneCandidate? converts.isLone)
    inStatement, converts.statementEdits_eq, lays.isEdits, touching_append, touching_append, own,
    noRest, List.append_nil, List.singleton_append]

/-- The edit of a use in the head is lost. -/
theorem Lays.mem_dropped
    (isEdit : edit ∈ touching header.span (useEdits program candidate id parameter)) :
    edit ∈ (applyEdits program.source (plan program options).edits).dropped := by
  have covered := fun other
      (isOther : other ∈ touching header.span (useEdits program candidate id parameter)) =>
    lays.covered stands spelled isParameter isPlace isOther
  have range : IsRange program.source header.span := by
    rw [lays.isSpan]
    exact stands.isRange_head spelled
  have notEmpty : candidate.start < candidate.body.span.start := by
    obtain ⟨behind, before, _⟩ := covered edit isEdit
    have headStart : header.start = candidate.start := congrArg Span.start lays.isSpan
    have headStop : header.stop = candidate.body.span.start := congrArg Span.stop lays.isSpan
    omega
  -- The head is planned behind the redirections but starts before all of them.
  have alike : Alike (touching header.span (plan program options).edits)
      (header :: touching header.span (useEdits program candidate id parameter)) := by
    rw [lays.touching_header converts stands spelled notEmpty]
    refine Alike.swap fun other isOther last isLast same => ?_
    obtain rfl := List.mem_singleton.mp isLast
    have isStart : other.start = last.start := congrArg Span.start same
    exact Nat.ne_of_gt (covered other isOther).1 isStart
  have arranged : Arranges program.source header.span.start header.span.stop
      (touching header.span (plan program options).edits) header.text _ :=
    (Arranges.erased range covered).reorder alike
  exact (becomes_of_arranges arranged fun edit isEdit => inside_of_mem_plan spelled isEdit).2 isEdit

/-- Each use of the parameter of a component is edited as its place in the function says. -/
theorem Lays.isEdited {use : Reference} (isUse : use ∈ uses (ofProgram program.root) id parameter)
    (redirects : Redirects program candidate place
      (referenceEdit candidate.survey parameter use.span) parameter use below) :
    IsEdited program (plan program options).edits candidate (StandsAt.bodyPlace place parts)
      parameter use.span below := by
  have touched := lays.touching_use converts stands spelled isParameter isPlace isUse redirects
  have isSpan := redirects.span_eq stands spelled
  have reached := redirects.reached
  rcases stands.isPrefix_or_head spelled reached redirects.isBelow with
    inBody | ⟨isOutside, behind, before⟩
  · have inside := Span.contains_iff.mp
      (Node.contains_below spelled.nested stands.at?_body reached inBody)
    have noHeader : touching use.span [header] = [] := by
      refine touching_eq_nil (fun other isOther => ?_) (Span.contains_refl _)
      obtain rfl := List.mem_singleton.mp isOther
      rw [lays.isSpan]
      exact Span.isApart_iff.mpr (Or.inl inside.1)
    obtain ⟨path, rfl⟩ := inBody
    have inPath := reached
    rw [Node.at?_append, stands.at?_body, Option.bind_some] at inPath
    rw [noHeader, stands.referenceEdit_eq spelled inPath] at touched
    rw [stands.referenceEdit_eq spelled inPath] at isSpan
    have range : IsRange program.source
        (redirection candidate.body path parameter use.span).span := by
      rw [isSpan]
      exact Node.isRange_span (Node.isNested_at? spelled.nested reached)
        (Node.isInText_at? spelled.inText reached)
    have becomes := becomes_text range (by rw [isSpan]; exact touched)
      fun edit isEdit => inside_of_mem_plan spelled isEdit
    rw [isSpan] at becomes
    exact .inBody rfl touched becomes
  · have isAlone : referenceEdit candidate.survey parameter use.span =
        .replace use.span "this.props".toList := by
      rcases referenceEdit_cases candidate.survey parameter use.span with
        ⟨isAlone, _⟩ | ⟨property, isProperty, inside, _⟩
      · exact isAlone
      · obtain ⟨path, _, rfl, _⟩ := stands.shorthand_around spelled reached isProperty inside
        exact absurd (List.prefix_append _ _) isOutside
    have notEmpty := redirects.notEmpty spelled
    have inHeader : header.span.contains use.span = true := by
      rw [lays.isSpan]
      exact Span.contains_iff.mpr ⟨Nat.le_of_lt behind, before⟩
    have isThere : touching use.span [header] = [header] :=
      List.filter_cons_of_pos (touches_of_contains notEmpty inHeader (Span.contains_refl _))
    have isLost : referenceEdit candidate.survey parameter use.span ∈
        (applyEdits program.source (plan program options).edits).dropped := by
      refine lays.mem_dropped converts stands spelled isParameter isPlace
        (List.mem_filter.mpr ⟨List.mem_map_of_mem isUse, ?_⟩)
      rw [isSpan]
      exact touches_of_contains notEmpty (Span.contains_refl _) inHeader
    rw [isThere, isAlone] at touched
    rw [isAlone] at isLost
    exact .inHead isOutside lays.isSpan touched isLost

end

end

/-! ## Names outside the function -/

section

variable (stands : StandsAt program.root statement candidate place parts)
include stands

/-- A name in the variables of a statement stands in the declared name or in the function. -/
theorem StandsAt.isPrefix_or_isPrefix
    (reached : program.root.at? below = some (.mk (.reference name) use []))
    (isBelow : place <+: below) : place ++ [0, 0] <+: below ∨ place ++ [0, 1] <+: below := by
  obtain ⟨_, _, declarator, _, isDeclaration, shows⟩ := stands.declaration
  obtain ⟨_, _, _, _, _, rfl⟩ := shows.shape
  obtain ⟨rest, rfl⟩ := isBelow
  rw [Node.at?_append, isDeclaration, Option.bind_some] at reached
  rcases rest with _ | ⟨_ | index, rest⟩
  · rw [Node.at?_nil] at reached
    cases reached
  · obtain ⟨_, isFirst, deeper⟩ := Node.at?_cons_eq_some_iff.mp reached
    cases isFirst
    rcases rest with _ | ⟨_ | _ | index, rest⟩
    · rw [Node.at?_nil] at deeper
      cases deeper
    · exact Or.inl ⟨rest, List.append_assoc place [0, 0] rest⟩
    · exact Or.inr ⟨rest, List.append_assoc place [0, 1] rest⟩
    · obtain ⟨_, isPart, _⟩ := Node.at?_cons_eq_some_iff.mp deeper
      cases isPart
  · obtain ⟨_, isPart, _⟩ := Node.at?_cons_eq_some_iff.mp reached
    cases isPart

/-- A name in a statement with a component stands in the variables, also if these are exported. -/
theorem StandsAt.isPrefix_of_statement (spelled : program.IsSpelled)
    (reached : program.root.at? below = some (.mk (.reference name) use [])) {index : Nat}
    (isIndex : [index] <+: place) (inStatement : [index] <+: below) : place <+: below := by
  obtain ⟨number, isNumber, isPlace⟩ := stands.around
  obtain ⟨_, _, _, _, isDeclaration, _⟩ := stands.declaration
  rcases isPlace with rfl | ⟨rfl, isExport⟩
  · rwa [isIndex.eq_of_length rfl] at inStatement
  · obtain ⟨rfl, _⟩ := List.cons_prefix_cons.mp isIndex
    obtain ⟨rest, rfl⟩ := inStatement
    obtain ⟨kind, span, children⟩ := statement
    obtain rfl : kind = .exportNamed := isExport
    have atStatement : program.root.at? [index] = some (.mk .exportNamed span children) :=
      Node.at?_of_getElem? isNumber (Node.at?_nil _)
    have legible := Node.isLegible_at? spelled.legible atStatement
    rw [Node.at?_append, atStatement, Option.bind_some] at reached
    rw [← List.singleton_append, Node.at?_append, atStatement, Option.bind_some] at isDeclaration
    -- Next to exported variables nothing else stands in the export.
    rcases children with _ | ⟨first, others⟩
    · obtain ⟨_, isFirst, _⟩ := Node.at?_cons_eq_some_iff.mp isDeclaration
      cases isFirst
    obtain ⟨_, isFirst, isVariables⟩ := Node.at?_cons_eq_some_iff.mp isDeclaration
    cases isFirst
    rw [Node.at?_nil] at isVariables
    cases isVariables
    obtain rfl := Node.variables_of_isLegible legible
    rcases rest with _ | ⟨_ | number, rest⟩
    · rw [Node.at?_nil] at reached
      cases reached
    · exact List.prefix_append [index, 0] rest
    · obtain ⟨_, isPart, _⟩ := Node.at?_cons_eq_some_iff.mp reached
      cases isPart

/-- A name outside the arrow function is part of the declared name or outside the statement. -/
theorem StandsAt.isPrefix_or_isApart (spelled : program.IsSpelled)
    (reached : program.root.at? below = some (.mk (.reference name) use []))
    (isOutside : ¬ place ++ [0, 1] <+: below) :
    place ++ [0, 0] <+: below ∨ statement.span.isApart use = true := by
  obtain ⟨index, atStatement, isIndex⟩ := stands.at?_statement
  have inVariables (inStatement : [index] <+: below) : place ++ [0, 0] <+: below :=
    (stands.isPrefix_or_isPrefix reached (stands.isPrefix_of_statement spelled reached isIndex
      inStatement)).resolve_right isOutside
  rcases Node.isPrefix_or_isApart spelled.nested atStatement reached with
    inStatement | isAbove | apart
  · exact Or.inl (inVariables inStatement)
  · have same := Node.eq_of_isPrefix_of_leaf reached rfl atStatement isAbove
    exact Or.inl (inVariables (same ▸ List.prefix_refl _))
  · exact Or.inr apart

end

/-- A name outside the arrow function is edited only if it is part of the declared name. -/
theorem IsEditOf.isApart_or_opens (isEditOf : IsEditOf program candidate place edit)
    (stands : StandsAt program.root statement candidate place parts) (spelled : program.IsSpelled)
    (reached : program.root.at? below = some (.mk (.reference name) use []))
    (isOutside : ¬ place ++ [0, 1] <+: below) :
    edit.span.isApart use = true ∨ place ++ [0, 0] <+: below ∧
      edit.span = ⟨candidate.start, candidate.body.span.start⟩ := by
  have inStatement := (isEditOf.contains stands spelled).1
  rcases stands.isPrefix_or_isApart spelled reached isOutside with inName | apart
  · obtain ⟨declared, isName, _, before⟩ := stands.exists_name spelled
    have inside := (Span.contains_iff.mp
      (Node.contains_below spelled.nested isName reached inName)).2
    have upper : use.stop ≤ candidate.arrow.start := Nat.le_trans inside before
    obtain ⟨_, _, head, body, _⟩ := stands.bounds spelled.nested
    cases isEditOf with
    | redirects redirects =>
      have inArrow := Span.contains_iff.mp (redirects.contains stands spelled).1
      exact Or.inl (Span.isApart_iff.mpr (Or.inr (Nat.le_trans upper inArrow.1)))
    | opens isSpan => exact Or.inr ⟨inName, isSpan⟩
    | shifts isLine isSpan =>
      have inBody := (stands.line_in_body spelled isLine).1
      rw [isSpan]
      exact Or.inl (Span.isApart_iff.mpr
        (Or.inr (Nat.le_trans upper (Nat.le_trans head (Nat.le_of_lt inBody)))))
    | closes isSpan =>
      rw [isSpan]
      exact Or.inl (Span.isApart_iff.mpr (Or.inr (Nat.le_trans upper (Nat.le_trans head body))))
  · exact Or.inl (Span.isApart_of_contains apart inStatement (Span.contains_refl _))

/-- Nothing is edited in a statement that is not converted. -/
theorem isApart_of_not_converts (spelled : program.IsSpelled)
    (isStatement : statement ∈ program.root.bodyStatements)
    (isLone : loneCandidate? statement = some candidate)
    (notConverted : ∀ edits, ¬ Converts program options statement candidate edits)
    (isEdit : edit ∈ (plan program options).edits) :
    edit.span.isApart statement.span = true := by
  have noEdits : statementEdits program options statement = [] := by
    rw [List.eq_nil_iff_forall_not_mem]
    intro other isOther
    obtain ⟨found, converts⟩ := exists_converts_of_mem isStatement isOther
    obtain rfl := Option.some.inj (isLone.symm.trans converts.isLone)
    exact notConverted _ converts
  have untouched : touching statement.span (plan program options).edits = [] := by
    rw [touching_plan spelled isStatement (isImport_of_loneCandidate? isLone)
      (Span.contains_refl _), noEdits]
    rfl
  have isFar := List.filter_eq_nil_iff.mp untouched edit isEdit
  rwa [Bool.not_eq_true', Bool.not_eq_false] at isFar

/--
The uses of the parameter of a component are the names like it in its arrow function.
If the component is converted, nothing else there declares the name.  Then each use
resolves to the parameter, does not write it, has the `this` of the function, and is
edited as its place says: in the body by one edit that puts the properties in its
place, in the head by an edit that is lost to the head of the class.  A name outside
the function is edited only as a part of the declared name, with the head.  If the
name is declared again, or a use writes it or has another `this`, nothing in the
statement is edited.
-/
theorem parameter_uses_are_redirected (program : Program) (options : TransformOptions)
    (spelled : program.IsSpelled) {statement : Node} {candidate : Candidate} {parameter : String}
    (isStatement : statement ∈ program.root.bodyStatements)
    (isLone : loneCandidate? statement = some candidate)
    (isParameter : parameter? candidate.parameters.children = .ok (some parameter)) :
    ∃ place parts id, StandsAt program.root statement candidate place parts ∧
      program.root.openings[id]? = some (place ++ [0, 1]) ∧
      (∀ below span children,
        program.root.at? below = some (.mk (.reference parameter) span children) →
        place ++ [0, 1] <+: below →
          ∃ use ∈ uses (ofProgram program.root) id parameter, use.span = span) ∧
      (∀ edits, Converts program options statement candidate edits →
        (∃ site, site.kind = .parameter ∧
          (ofProgram program.root).declarationsWithin id parameter = [(id, site)] ∧
          ∀ use ∈ uses (ofProgram program.root) id parameter,
            (ofProgram program.root).resolve use.scope parameter = some ⟨id, [site]⟩ ∧
            use.access ≠ .write ∧
            (ofProgram program.root).thisScope use.scope =
              (ofProgram program.root).thisScope id ∧
            ∃ below, program.root.at? below = some (.mk (.reference parameter) use.span []) ∧
              place ++ [0, 1] <+: below ∧
              IsEdited program (plan program options).edits candidate
                (StandsAt.bodyPlace place parts) parameter use.span below) ∧
        ∀ other ∈ (ofProgram program.root).references,
          (ofProgram program.root).isWithin other.scope id = false →
          ∃ below, program.root.at? below = some (.mk (.reference other.name) other.span []) ∧
            ∀ edit ∈ edits, edit.span.isApart other.span = true ∨ place ++ [0, 0] <+: below ∧
              edit.span = ⟨candidate.start, candidate.body.span.start⟩) ∧
      ((1 < ((ofProgram program.root).declarationsWithin id parameter).length ∨
          ∃ use ∈ uses (ofProgram program.root) id parameter, use.access = .write ∨
            (ofProgram program.root).thisScope use.scope ≠
              (ofProgram program.root).thisScope id) →
        ∀ edit ∈ (plan program options).edits, edit.span.isApart statement.span = true) := by
  obtain ⟨place, parts, stands⟩ := exists_standsAt isStatement isLone
  obtain ⟨function, isFunction, isPlace⟩ := stands.exists_function spelled
  refine ⟨place, parts, function.scope, stands, isPlace, fun below span children reached isBelow =>
    stands.exists_use spelled isPlace reached isBelow, fun edits converts => ⟨?_, ?_⟩, ?_⟩
  · obtain ⟨few, allowed, header, rest, lays⟩ := converts.of_parameter isParameter isFunction
    obtain ⟨site, isKind, single⟩ := stands.exists_only_site spelled isParameter isPlace few
    refine ⟨site, isKind, single, fun use isUse => ?_⟩
    obtain ⟨_, _, isWithin⟩ := mem_uses_iff.mp isUse
    obtain ⟨below, redirects⟩ := stands.exists_redirects spelled isParameter isPlace isUse
    obtain ⟨notWrite, sameThis⟩ := allowed use isUse
    exact ⟨(wellFormed_ofProgram program.root).resolve_eq_of_single single
      (isWithin_iff.mp isWithin), notWrite, sameThis, below, redirects.reached, redirects.isBelow,
        lays.isEdited converts stands spelled isParameter isPlace isUse redirects⟩
  · intro other isOther isOutside
    obtain ⟨below, reached, isBelow⟩ :=
      stands.exists_place_of_reference spelled isPlace isOther
    refine ⟨below, reached, fun edit isEdit => ?_⟩
    refine (converts.isEditOf stands spelled isEdit).isApart_or_opens stands spelled reached ?_
    rw [← isBelow, isOutside]
    exact Bool.false_ne_true
  · intro blocked edit isEdit
    refine isApart_of_not_converts spelled isStatement isLone (fun edits converts => ?_) isEdit
    obtain ⟨few, allowed, _⟩ := converts.of_parameter isParameter isFunction
    rcases blocked with several | ⟨use, isUse, isWrite | otherThis⟩
    · exact Nat.not_le.mpr several few
    · exact (allowed use isUse).1 isWrite
    · exact otherThis (allowed use isUse).2

theorem parameter?_eq_of_toOption {parameters : List Node}
    (isParameter : (parameter? parameters).toOption = some (some parameter)) :
    parameter? parameters = .ok (some parameter) := by
  cases isFound : parameter? parameters with
  | error reason =>
    rw [isFound] at isParameter
    cases isParameter
  | ok found =>
    rw [isFound] at isParameter
    exact congrArg Except.ok (Option.some.inj isParameter)

/-- A component that uses its parameter as a property, in a function of its body, and again. -/
def innerShorthand : Option Program :=
  parseProgram .plain
    "const A = (props) => { const f = () => g({ props }); return <i>{props.a}</i>; };".toList

/-- In the sample the property keeps its name and takes the properties of the class. -/
theorem parameter_uses_are_redirected_of_innerShorthand :
    ∃ program statement candidate edits id site, innerShorthand = some program ∧
      program.IsSpelled ∧ Converts program .standard statement candidate edits ∧
      parameter? candidate.parameters.children = .ok (some "props") ∧
      (ofProgram program.root).declarationsWithin id "props" = [(id, site)] ∧
      (∃ use ∈ uses (ofProgram program.root) id "props", use.span = ⟨43, 48⟩ ∧
        (ofProgram program.root).resolve use.scope "props" = some ⟨id, [site]⟩) ∧
      Becomes program.source (plan program .standard).edits ⟨43, 48⟩
        "props: this.props".toList := by
  have evaluated : convertsSome innerShorthand (fun program candidate _ =>
      decide program.IsSpelled &&
        (parameter? candidate.parameters.children).toOption == some (some "props") &&
        touching ⟨43, 48⟩ (plan program .standard).edits ==
          [.replace ⟨43, 48⟩ "props: this.props".toList] &&
        (List.range program.root.openings.length).all fun id =>
          (uses (ofProgram program.root) id "props").any fun use =>
            use.span == ⟨43, 48⟩) = true := by
    decide +kernel
  rcases exists_converts evaluated with
    ⟨program, statement, candidate, edits, parsed, converts, rest⟩
  simp only [Bool.and_eq_true, beq_iff_eq, List.all_eq_true, List.mem_range,
    List.any_eq_true] at rest
  rcases rest with ⟨⟨⟨spelled, hasParameter⟩, touched⟩, isUsed⟩
  have isParameter := parameter?_eq_of_toOption hasParameter
  rcases parameter_uses_are_redirected program .standard (of_decide_eq_true spelled)
    converts.isStatement converts.isLone isParameter with ⟨place, parts, id, _, isPlace, _,
      converted, _⟩
  rcases (converted edits converts).1 with ⟨site, _, single, redirected⟩
  rcases isUsed id (List.getElem?_eq_some_iff.mp isPlace).1 with ⟨use, isUse, isSpan⟩
  rcases redirected use isUse with ⟨resolved, _, _, below, _, _, isEdited⟩
  rw [isSpan] at isEdited
  have becomes : Becomes program.source (plan program .standard).edits ⟨43, 48⟩
      "props: this.props".toList := by
    cases isEdited with
    | inBody isBelow only becomes =>
      rw [touched] at only
      rwa [← List.singleton_inj.mp only] at becomes
    | inHead isOutside isHeader both isLost =>
      rw [touched] at both
      cases both
  exact ⟨program, statement, candidate, edits, id, site, parsed, of_decide_eq_true spelled,
    converts, isParameter, single, ⟨use, isUse, isSpan, resolved⟩, becomes⟩

/-- A component that uses its parameter as a property in a decorator of a class. -/
def decoratorShorthand : Option Program :=
  parseProgram .plain
    "const A = (props) => { @d({ props }) class C {} return <div />; };".toList

/-- In the sample the property loses its name. -/
theorem shorthand_in_decorator_loses_its_name :
    ∃ program statement candidate edits property, decoratorShorthand = some program ∧
      program.IsSpelled ∧ Converts program .standard statement candidate edits ∧
      parameter? candidate.parameters.children = .ok (some "props") ∧
      candidate.body.at? [0, 0, 0, 1, 0] = some property ∧ property.kind.isShorthand = true ∧
      property.children.map Node.kind = [.reference "props"] ∧
      touching property.span (plan program .standard).edits =
        [.replace property.span "this.props".toList] := by
  have evaluated : convertsSome decoratorShorthand (fun program candidate _ =>
      decide program.IsSpelled &&
        (parameter? candidate.parameters.children).toOption == some (some "props") &&
        (candidate.body.at? [0, 0, 0, 1, 0]).any fun property => property.kind.isShorthand &&
          property.children.map Node.kind == [.reference "props"] &&
          touching property.span (plan program .standard).edits ==
            [.replace property.span "this.props".toList]) = true := by
    decide +kernel
  rcases exists_converts evaluated with
    ⟨program, statement, candidate, edits, parsed, converts, rest⟩
  simp only [Bool.and_eq_true, Option.any_eq_true, beq_iff_eq] at rest
  rcases rest with
    ⟨⟨spelled, hasParameter⟩, property, reached, ⟨isShorthand, isName⟩, touched⟩
  exact ⟨program, statement, candidate, edits, property, parsed, of_decide_eq_true spelled,
    converts, parameter?_eq_of_toOption hasParameter, reached, isShorthand, isName, touched⟩

end Component

end Codemod
