import Codemod.Proofs.Destructure.Placement

/-!
# Which edits are dropped

The edits of a text are planned for one function at a time, while they are
carried out together.  Where the spans of the text nest, any two of them stand
apart, with one exception: the edit that fills a pattern without properties
replaces the type that is ascribed to it, and covers what is planned inside the
type.  So the covered edits are dropped and no others.

What a function asks for is dropped or carried out as a whole.  If an edit
covers one of the accesses that become a new name, then it covers the function
that owns the access: a function with its body in braces that stood between the
two would own the access itself.
-/

namespace Codemod

/-- Whether a node is an object pattern with a type and without properties or a rest. -/
def Node.isAscribedEmpty (node : Node) : Bool :=
  node.kind == .objectPattern && !node.children.isEmpty &&
    node.children.all fun part =>
      match part.kind with
      | .patternProperty _ _ => false
      | .rest => false
      | _ => true

namespace Destructure

open ScopeTable Edit

variable {program : Program} {options : TransformOptions}

/-! ## Accesses -/

/-- The node of an access of a property. -/
structure IsAccess (program : Program) (options : TransformOptions) (access : MemberAccess)
    (name : String) (node : Node) : Prop where
  member : access ∈ (ofProgram program.root).members
  named : candidateName? (.ofProgram program options) access = some name
  inTree : node ∈ program.root.nodes
  isUse : node.use? = some access.use

theorem exists_isAccess {access : MemberAccess} {name : String}
    (member : access ∈ (ofProgram program.root).members)
    (named : candidateName? (.ofProgram program options) access = some name) :
    ∃ node, IsAccess program options access name node := by
  rcases Node.mem_uses_iff.1 (use_mem_uses member) with ⟨node, inTree, isUse⟩
  exact ⟨node, member, named, inTree, isUse⟩

namespace IsAccess

variable {access : MemberAccess} {name : String} {node : Node}
  (isAccess : IsAccess program options access name node)

include isAccess

theorem span : node.span = access.span :=
  (Node.use?_eq_some_iff.1 isAccess.isUse).2.2

theorem start_lt_stop (nested : program.root.isNested = true) :
    access.span.start < access.span.stop :=
  Node.start_lt_stop_of_use? (Node.isNested_of_mem_nodes nested isAccess.inTree) isAccess.isUse

theorem isRange (nested : program.root.isNested = true)
    (inText : program.root.isInText program.source = true) :
    IsRange program.source access.span := by
  rw [← isAccess.span]
  exact Node.isRange_span (Node.isNested_of_mem_nodes nested isAccess.inTree)
    (Node.isInText_of_mem_nodes inText isAccess.inTree)

/-- Two accesses of properties stand apart. -/
theorem isApart (nested : program.root.isNested = true) {other : MemberAccess}
    {otherName : String} {otherNode : Node}
    (isOther : IsAccess program options other otherName otherNode)
    (different : access ≠ other) : access.span.isApart other.span = true := by
  have inside {first second : Node} (isFirst : first ∈ program.root.nodes)
      (isSecond : second ∈ first.nodes) : first.span.contains second.span = true :=
    Node.contains_of_mem_nodes (Node.isNested_of_mem_nodes nested isFirst) isSecond
  rcases Node.mem_nodes_or_isApart nested isAccess.inTree isOther.inTree with
    inOther | inAccess | apart
  · have contains := inside isOther.inTree inOther
    rw [isAccess.span, isOther.span] at contains
    exact absurd (eq_of_contains_span nested isAccess.member isOther.member isAccess.named
      isOther.named contains).symm different
  · have contains := inside isAccess.inTree inAccess
    rw [isAccess.span, isOther.span] at contains
    exact absurd (eq_of_contains_span nested isOther.member isAccess.member isOther.named
      isAccess.named contains) different
  · rw [← isAccess.span, ← isOther.span]
    exact apart

/-- A function around an access is a function around the scope of the access. -/
theorem mem_ancestors (isText : program.root.kind = .program)
    (nested : program.root.isNested = true) {function : FunctionRecord} {around : Node}
    (lists : Lists program.root function around) (isInner : node ∈ around.nodes) :
    function.scope ∈ (ofProgram program.root).ancestors access.scope := by
  have record := lists.isRecord isText
  rcases record.notes isInner with rfl | ⟨use, noted⟩
  · rcases Node.use?_eq_some_iff.1 isAccess.isUse with ⟨⟨property, isOptional, isMember⟩, _⟩
    have isFunction := record.isFunction
    rw [isMember] at isFunction
    cases isFunction
  · have recorded : access.use ∈ Trace.uses (node.trace use) := by
      rw [Node.uses_trace]
      exact Node.mem_uses_iff.2 ⟨node, Node.mem_nodes_self node, isAccess.isUse⟩
    rcases List.mem_filterMap.1 recorded with ⟨step, isStep, isUse⟩
    have notes := noted step isStep
    cases step with
    | member chain span mode =>
      rcases notes with ⟨id, isAround, isMember⟩
      have sameSpan : span = access.span := congrArg Prod.snd (Option.some.inj isUse)
      have same := List.inj_on_of_nodup_map (nodup_spans nested) isMember isAccess.member sameSpan
      rw [← same]
      exact isAround
    | _ => cases isUse

end IsAccess

/-! ## Edits that reach one another -/

variable {edit : Edit}

/-- An edit of a text replaces an access or binds the new names of a function. -/
theorem replacement_or_newBinding (isText : program.root.kind = .program)
    (member : edit ∈ (planAll (.ofProgram program options)).edits) :
    (∃ access name node, IsAccess program options access name node ∧
      edit = .replace access.span name.toList) ∨
    ∃ function node body, IsNewBinding program options function node body edit := by
  rw [(perm_edits (wellFormed_ofProgram program options)).mem_iff, List.mem_append] at member
  rcases member with isReplacement | isBinding
  · rcases List.mem_map.1 isReplacement with ⟨judgement, isReplaced, rfl⟩
    rcases mem_outcomes_iff.1 (List.mem_of_mem_filter isReplaced) with ⟨isMember, named, _⟩
    rcases exists_isAccess isMember named with ⟨node, isAccess⟩
    exact Or.inl ⟨judgement.access, judgement.name, node, isAccess, rfl⟩
  · rcases List.mem_filterMap.1 isBinding with ⟨function, isFunction, isEdit⟩
    exact Or.inr ⟨function, exists_isNewBinding isText isFunction isEdit⟩

namespace IsNewBinding

variable {function : FunctionRecord} {node body : Node} {edit : Edit}
  (isNew : IsNewBinding program options function node body edit)

include isNew

/-- A new binding stands apart from an access or covers its replacement. -/
theorem isApart_or_covers_access (nested : program.root.isNested = true)
    (braced : program.root.arePatternsBraced = true) {access : MemberAccess} {name : String}
    {inner : Node} (isAccess : IsAccess program options access name inner) :
    edit.span.isApart access.span = true ∨
      FillsAround (propsPatterns (.ofProgram program options) function) body edit.span
        inner ∧ edit.covers (.replace access.span name.toList) = true := by
  rcases isNew.isApart_or_fillsAround_of_use? nested isAccess.inTree isAccess.isUse with
    apart | around
  · left
    rw [← isAccess.span]
    exact apart
  · have bounds := around.inside isNew.isBody.kind nested braced isNew.isBody.mem_nodes
    have notEmpty := isAccess.start_lt_stop nested
    rw [isAccess.span] at bounds
    refine Or.inr ⟨around, isNew.covers nested braced around ?_ ?_⟩
    · rw [isAccess.span]
      exact Span.contains_refl _
    · exact Nat.lt_of_lt_of_le notEmpty bounds.2

/-- A new binding stands apart from that of a later function or covers it. -/
theorem isApart_or_covers_of_lt (isText : program.root.kind = .program)
    (nested : program.root.isNested = true)
    (braced : program.root.arePatternsBraced = true) {later : FunctionRecord}
    {laterNode laterBody : Node} {other : Edit}
    (isLater : IsNewBinding program options later laterNode laterBody other)
    (earlier : function.scope < later.scope) :
    edit.span.isApart other.span = true ∨
      FillsAround (propsPatterns (.ofProgram program options) function) body edit.span
        laterNode ∧ edit.covers other = true := by
  have inside := isLater.contains nested
  rcases isNew.isApart_or_fillsAround_of_lists isText nested isLater.lists earlier with
    apart | around
  · exact Or.inl (Span.isApart_of_contains apart (Span.contains_refl _) inside)
  · by_cases early : other.start < edit.stop
    · exact Or.inr ⟨around, isNew.covers nested braced around inside early⟩
    · exact Or.inl (Span.isApart_iff.2 (Or.inl (Nat.not_lt.1 early)))

end IsNewBinding

theorem eq_of_scope_eq {function other : FunctionRecord}
    (member : function ∈ (ofProgram program.root).functions)
    (isOther : other ∈ (ofProgram program.root).functions)
    (same : function.scope = other.scope) : function = other := by
  have wellFormed := ScopeTable.wellFormed_ofProgram program.root
  have found := wellFormed.function?_scope member
  rw [same, wellFormed.function?_scope isOther] at found
  exact (Option.some.inj found).symm

theorem pairwise_replacements (nested : program.root.isNested = true) :
    (replacements (outcomes (.ofProgram program options))).Pairwise Laminar := by
  rw [replacements, List.pairwise_map]
  apply ((nodup_outcomes nested).filter _).imp_of_mem
  intro judgement other isJudgement isOther different
  rcases mem_outcomes_iff.1 (List.mem_of_mem_filter isJudgement) with
    ⟨member, named, isVerdict⟩
  rcases mem_outcomes_iff.1 (List.mem_of_mem_filter isOther) with
    ⟨otherMember, otherNamed, isOtherVerdict⟩
  rcases exists_isAccess member named with ⟨_, isAccess⟩
  rcases exists_isAccess otherMember otherNamed with ⟨_, isOtherAccess⟩
  left
  apply isAccess.isApart nested isOtherAccess
  -- The outcome of an access is settled by the access.
  rintro same
  apply different
  rcases judgement with ⟨access, name, verdict⟩
  rcases other with ⟨_, otherName, otherVerdict⟩
  cases same
  cases Option.some.inj (named.symm.trans otherNamed)
  exact congrArg _ (isVerdict.trans isOtherVerdict.symm)

variable {outer : Edit} {judgement : Judgement}

section

variable (isText : program.root.kind = .program) (nested : program.root.isNested = true)
include isText nested

theorem pairwise_newBindings (braced : program.root.arePatternsBraced = true) :
    ((ofProgram program.root).functions.filterMap
      (newBinding? (.ofProgram program options))).Pairwise Laminar := by
  have increasing := (ScopeTable.wellFormed_ofProgram program.root).functions_increasing
  rw [List.pairwise_filterMap]
  apply increasing.imp_of_mem
  intro function later isFunction isLater earlier edit isEdit other isOther
  rcases exists_isNewBinding isText isFunction isEdit with ⟨_, _, isNew⟩
  rcases exists_isNewBinding isText isLater isOther with ⟨_, _, isLaterNew⟩
  rcases isNew.isApart_or_covers_of_lt isText nested braced isLaterNew earlier with
    apart | ⟨_, covers⟩
  · exact Or.inl apart
  · exact Or.inr (Or.inl covers)

/-- The edits of a text stand apart or cover one another. -/
theorem pairwise_laminar (braced : program.root.arePatternsBraced = true) :
    (planAll (.ofProgram program options)).edits.Pairwise Laminar := by
  apply List.Pairwise.perm _ (perm_edits (wellFormed_ofProgram program options)).symm
    fun laminar => laminar.symm
  rw [List.pairwise_append]
  refine ⟨pairwise_replacements nested, pairwise_newBindings isText nested braced, ?_⟩
  intro replacement isReplacement binding isBinding
  rcases List.mem_map.1 isReplacement with ⟨judgement, isReplaced, rfl⟩
  rcases mem_outcomes_iff.1 (List.mem_of_mem_filter isReplaced) with ⟨member, named, _⟩
  rcases exists_isAccess member named with ⟨_, isAccess⟩
  rcases List.mem_filterMap.1 isBinding with ⟨function, isFunction, isEdit⟩
  rcases exists_isNewBinding isText isFunction isEdit with ⟨_, _, isNew⟩
  rcases isNew.isApart_or_covers_access nested braced isAccess with apart | ⟨_, covers⟩
  · exact Or.inl (Span.isApart_symm apart)
  · exact Or.inr (Or.inr covers)

theorem isRange_of_mem_edits (inText : program.root.isInText program.source = true) {edit : Edit}
    (member : edit ∈ (planAll (.ofProgram program options)).edits) :
    IsRange program.source edit.span := by
  rcases replacement_or_newBinding isText member with
    ⟨access, name, node, isAccess, rfl⟩ | ⟨function, node, body, isNew⟩
  · exact isAccess.isRange nested inText
  · exact isNew.isRange nested inText

/-! ## What covers an edit -/

/-- What covers the replacement of an access fills a pattern around the access. -/
theorem IsAccess.exists_filling (braced : program.root.arePatternsBraced = true)
    {access : MemberAccess} {name : String} {node : Node}
    (isAccess : IsAccess program options access name node)
    (isOuter : outer ∈ (planAll (.ofProgram program options)).edits)
    (covers : outer.covers (.replace access.span name.toList) = true) :
    ∃ function around body, IsNewBinding program options function around body outer ∧
      FillsAround (propsPatterns (.ofProgram program options) function) body outer.span node := by
  have forward := Nat.le_of_lt (isAccess.start_lt_stop nested)
  have notApart (apart : outer.span.isApart access.span = true) : False := by
    rw [covers_eq_false_of_isApart forward apart] at covers
    cases covers
  rcases replacement_or_newBinding isText isOuter with
    ⟨other, otherName, _, isOther, rfl⟩ | ⟨function, around, body, isNew⟩
  · by_cases same : other = access
    · rw [same, covers_iff] at covers
      exact absurd covers.1 (Nat.lt_irrefl _)
    · exact (notApart (isOther.isApart nested isAccess same)).elim
  · rcases isNew.isApart_or_covers_access nested braced isAccess with apart | ⟨fills, _⟩
    · exact (notApart apart).elim
    · exact ⟨function, around, body, isNew, fills⟩

/-- What covers a new binding fills a pattern around the function. -/
theorem IsNewBinding.exists_filling (inText : program.root.isInText program.source = true)
    (braced : program.root.arePatternsBraced = true) {function : FunctionRecord} {node body : Node}
    (isNew : IsNewBinding program options function node body edit)
    (isOuter : outer ∈ (planAll (.ofProgram program options)).edits)
    (covers : outer.covers edit = true) :
    ∃ other around otherBody, IsNewBinding program options other around otherBody outer ∧
      FillsAround (propsPatterns (.ofProgram program options) other) otherBody outer.span node := by
  have forward := (isNew.isRange nested inText).forward
  have notApart (apart : outer.span.isApart edit.span = true) : False := by
    rw [covers_eq_false_of_isApart forward apart] at covers
    cases covers
  have notCovered (covered : edit.covers outer = true) : False := by
    rw [covers_eq_false_of_covers covered] at covers
    cases covers
  rcases replacement_or_newBinding isText isOuter with
    ⟨access, name, _, isAccess, rfl⟩ | ⟨other, around, otherBody, isOther⟩
  · rcases isNew.isApart_or_covers_access nested braced isAccess with apart | ⟨_, covered⟩
    · exact (notApart (Span.isApart_symm apart)).elim
    · exact (notCovered covered).elim
  · rcases Nat.lt_trichotomy other.scope function.scope with earlier | same | later
    · rcases isOther.isApart_or_covers_of_lt isText nested braced isNew earlier with
        apart | ⟨fills, _⟩
      · exact (notApart apart).elim
      · exact ⟨other, around, otherBody, isOther, fills⟩
    · have isSame := eq_of_scope_eq isOther.member isNew.member same
      rw [isSame] at isOther
      cases Option.some.inj (isOther.isEdit.symm.trans isNew.isEdit)
      exact (notCovered covers).elim
    · rcases isNew.isApart_or_covers_of_lt isText nested braced isOther later with
        apart | ⟨_, covered⟩
      · exact (notApart (Span.isApart_symm apart)).elim
      · exact (notCovered covered).elim

/-! ## Accesses and the names that they become -/

omit isText nested in
/-- A new name is bound before the accesses that become the name. -/
theorem IsNewBinding.stop_le (nested : program.root.isNested = true) {function : FunctionRecord}
    {node body : Node} (isNew : IsNewBinding program options function node body edit)
    (judged : Judged (.ofProgram program options) function judgement)
    (injected : judgement.verdict = .injected) :
    edit.stop ≤ judgement.access.span.start := by
  have wellFormed := wellFormed_ofProgram program options
  have isBinding := (bindingEdit?_eq_some_iff.1 isNew.isEdit).2
  have free := (injectionBlocker?_eq_none_iff.1
    (judged.unblocked_of_injected wellFormed injected)).2
  cases found : mergeTarget? (.ofProgram program options) function with
  | some target =>
    rw [found] at free isBinding
    rw [← isBinding]
    exact (bindsBefore_mergeEdit nested isNew.isBody found free.2 _).before
  | none =>
    rw [found] at isBinding
    have replaced : judgement.verdict.isReplaced = true := by
      rw [injected]
      rfl
    have bindsBefore := bindsBefore_declarationEdit? isNew.isBody found
      (fun _ => judged.stop_le_of_super wellFormed replaced)
      (fun first isFirst => by
        rcases Node.exists_head_start_le
          (Node.isNested_of_mem_nodes nested isNew.isBody.mem_nodes) isNew.isBody.kind
          (judged.mem_uses_body nested isNew.isBody) with ⟨head, isHead, stands⟩
        cases Option.some.inj (isHead.symm.trans isFirst)
        exact stands) isBinding
    exact bindsBefore.before

/-- New names are bound in the text if and only if the accesses become the names. -/
theorem IsNewBinding.isCovered_iff (inText : program.root.isInText program.source = true)
    (braced : program.root.arePatternsBraced = true) {function : FunctionRecord} {node body : Node}
    (isNew : IsNewBinding program options function node body edit)
    (judged : Judged (.ofProgram program options) function judgement)
    (injected : judgement.verdict = .injected) :
    isCovered (planAll (.ofProgram program options)).edits edit = true ↔
      isCovered (planAll (.ofProgram program options)).edits
        (.replace judgement.access.span judgement.name.toList) = true := by
  have wellFormed := wellFormed_ofProgram program options
  rcases judged.candidate wellFormed with ⟨member, named, owner, _⟩
  rcases exists_isAccess member named with ⟨inner, isAccess⟩
  have notEmpty := isAccess.start_lt_stop nested
  have nodeNested := Node.isNested_of_mem_nodes nested isNew.mem_nodes
  have inNode : node.span.contains judgement.access.span = true :=
    Span.contains_trans (Node.contains_of_mem_children nodeNested isNew.isChild)
      (Node.contains_of_mem_uses (Node.isNested_of_mem_children nodeNested isNew.isChild)
        (judged.mem_uses_body nested isNew.isBody))
  rw [Edit.isCovered_iff, Edit.isCovered_iff]
  constructor
  · rintro ⟨outer, isOuter, covers⟩
    rcases isNew.exists_filling isText nested inText braced isOuter covers with
      ⟨other, around, otherBody, isOther, fills⟩
    have bounds := fills.inside isOther.isBody.kind nested braced isOther.isBody.mem_nodes
    refine ⟨outer, isOuter, isOther.covers nested braced fills inNode ?_⟩
    exact Nat.lt_of_lt_of_le notEmpty (Nat.le_trans (Span.contains_iff.1 inNode).2 bounds.2)
  · rintro ⟨outer, isOuter, covers⟩
    rcases isAccess.exists_filling isText nested braced isOuter covers with
      ⟨other, around, otherBody, isOther, fills⟩
    have early : judgement.access.span.start < outer.stop := (covers_iff.1 covers).2.1
    have before := isNew.stop_le nested judged injected
    have forward : edit.start ≤ edit.stop := (isNew.isRange nested inText).forward
    have inPattern : outer.span.contains judgement.access.span = true := by
      rw [covers_iff] at covers
      exact Span.contains_iff.2 ⟨Nat.le_of_lt covers.1, covers.2.2⟩
    -- The function of the pattern is in braces, so it is the owner or stands around it.
    have isAround : other.scope ≤ function.scope := by
      have isInner : inner ∈ around.nodes := Node.mem_nodes_trans
        (Node.mem_nodes_of_body? isOther.hasBody) (fills.mem_nodes isOther.isBody.kind)
      have isAncestor := owner.mem_ancestors_of_inBraces wellFormed isOther.member
        isOther.inBraces (isAccess.mem_ancestors isText nested isOther.lists isInner)
      exact (wellFormed.le_of_mem_ancestors isAncestor).1
    rcases Nat.lt_or_eq_of_le isAround with earlier | same
    · rcases isOther.isApart_or_fillsAround_of_lists isText nested isNew.lists earlier with
        apart | fillsAround
      · exact absurd apart (Span.not_isApart_of_contains notEmpty inPattern inNode)
      · refine ⟨outer, isOuter, isOther.covers nested braced fillsAround (isNew.contains nested) ?_⟩
        omega
    · have isSame := eq_of_scope_eq isOther.member isNew.member same
      rw [isSame] at isOther
      cases Option.some.inj (isOther.isEdit.symm.trans isNew.isEdit)
      omega

/-! ## The edits of a text -/

/--
A new binding that fills a pattern with a type and without properties, and an
edit that stands in the type.
-/
def FillsAscribed (program : Program) (setting : Setting) (outer inner : Edit) : Prop :=
  (∃ function ∈ setting.table.functions, newBinding? setting function = some outer) ∧
    ∃ pattern ∈ program.root.nodes, pattern.isAscribedEmpty = true ∧
      pattern.span = outer.span ∧
      ∃ part ∈ pattern.children, part.span.contains inner.span = true

omit isText nested in
theorem IsFilled.isAscribedEmpty {patterns : List Destructuring} {body pattern part : Node}
    (isFilled : IsFilled patterns body pattern) (isPart : part ∈ pattern.children) :
    pattern.isAscribedEmpty = true := by
  rcases isFilled.target with ⟨target, ⟨_, _, _, _, noRest⟩, isEmpty, isPatternOf⟩
  simp only [Node.isAscribedEmpty, Bool.and_eq_true, beq_iff_eq, List.all_eq_true]
  refine ⟨⟨isPatternOf.kind, ?_⟩, ?_⟩
  · cases noParts : pattern.children with
    | nil =>
      rw [noParts] at isPart
      cases isPart
    | cons first others => rfl
  · intro other isOther
    split
    · next isShorthand isComputed isProperty =>
      exact absurd isProperty (isPatternOf.empty isEmpty other isOther _ _)
    · next isRest => exact absurd isRest (isPatternOf.rest noRest other isOther)
    · rfl

omit isText nested in
theorem IsNewBinding.fillsAscribed (nested : program.root.isNested = true)
    {function : FunctionRecord} {node body inner : Node}
    (isNew : IsNewBinding program options function node body outer)
    (fills : FillsAround (propsPatterns (.ofProgram program options) function) body
      outer.span inner)
    (inside : inner.span.contains edit.span = true) :
    FillsAscribed program (.ofProgram program options) outer edit := by
  rcases fills with ⟨pattern, isFilled, isSpan, part, isPart, isInner⟩
  have isPattern := Node.mem_nodes_trans isNew.isBody.mem_nodes
    (isFilled.mem_nodes isNew.isBody.kind)
  have partNested := Node.isNested_of_mem_children
    (Node.isNested_of_mem_nodes nested isPattern) isPart
  refine ⟨⟨function, isNew.member, isNew.isEdit⟩, pattern, isPattern,
    isFilled.isAscribedEmpty isPart, isSpan, part, isPart, ?_⟩
  exact Span.contains_trans (Node.contains_of_mem_nodes partNested isInner) inside

theorem fillsAscribed_of_covers (inText : program.root.isInText program.source = true)
    (braced : program.root.arePatternsBraced = true) {inner : Edit}
    (isOuter : outer ∈ (planAll (.ofProgram program options)).edits)
    (isInner : inner ∈ (planAll (.ofProgram program options)).edits)
    (covers : outer.covers inner = true) :
    FillsAscribed program (.ofProgram program options) outer inner := by
  rcases replacement_or_newBinding isText isInner with
    ⟨access, name, node, isAccess, rfl⟩ | ⟨function, node, body, isNew⟩
  · rcases isAccess.exists_filling isText nested braced isOuter covers with
      ⟨_, _, _, isFilling, fills⟩
    apply isFilling.fillsAscribed nested fills
    rw [isAccess.span]
    exact Span.contains_refl _
  · rcases isNew.exists_filling isText nested inText braced isOuter covers with
      ⟨_, _, _, isFilling, fills⟩
    exact isFilling.fillsAscribed nested fills (isNew.contains nested)

end

theorem replacement_mem_edits {setting : Setting} {function : FunctionRecord}
    (judged : Judged setting function judgement) (replaced : judgement.verdict.isReplaced = true) :
    .replace judgement.access.span judgement.name.toList ∈ (planAll setting).edits := by
  rw [edits_planAll]
  refine List.mem_flatMap.2 ⟨function, judged.member, List.mem_append_left _ ?_⟩
  exact List.mem_map.2 ⟨judgement, List.mem_filter.2 ⟨judged.judged, replaced⟩, rfl⟩

theorem newBinding_mem_edits {setting : Setting} {function : FunctionRecord}
    (member : function ∈ setting.table.functions)
    (isEdit : newBinding? setting function = some edit) :
    edit ∈ (planAll setting).edits := by
  rw [edits_planAll]
  exact List.mem_flatMap.2 ⟨function, member, List.mem_append_right _ (Option.mem_toList.2 isEdit)⟩

/--
The edits of a text are ranges of it, and two of them stand apart unless one
covers the other.  One edit covers another only if it fills a pattern with a
type and without properties, and the other one stands in the type.  The covered
edits are dropped and no others, so without such a pattern none is.

A function's new names are bound in the text if and only if its accesses become
the names: either all of these edits are dropped or none of them.
-/
theorem edits_are_dropped_in_ascribed_types (program : Program) (options : TransformOptions)
    (isText : program.root.kind = .program) (nested : program.root.isNested = true)
    (inText : program.root.isInText program.source = true)
    (braced : program.root.arePatternsBraced = true) :
    let setting := Setting.ofProgram program options
    let planned := (Transform.propsToDestructuring.plan program options).edits
    let dropped := (applyEdits program.source planned).dropped
    (∀ edit ∈ planned, IsRange program.source edit.span) ∧
    planned.Pairwise Laminar ∧
    (∀ outer ∈ planned, ∀ inner ∈ planned, outer.covers inner = true →
      FillsAscribed program setting outer inner) ∧
    dropped = (sortBy precedes planned).filter (isCovered planned) ∧
    (∀ function ∈ setting.table.functions, ∀ edit,
      newBinding? setting function = some edit →
        edit ∈ planned ∧ ∀ judgement, Judged setting function judgement →
          judgement.verdict = .injected →
            .replace judgement.access.span judgement.name.toList ∈ planned ∧
            (edit ∈ dropped ↔
              .replace judgement.access.span judgement.name.toList ∈ dropped)) ∧
    ((∀ node ∈ program.root.nodes, node.isAscribedEmpty = false) →
      planned.Pairwise (fun first second => first.span.isApart second.span = true) ∧
        dropped = []) := by
  intro setting planned dropped
  have ranges : ∀ edit ∈ planned, IsRange program.source edit.span :=
    fun edit => isRange_of_mem_edits isText nested inText
  have laminar : planned.Pairwise Laminar := pairwise_laminar isText nested braced
  have ascribed : ∀ outer ∈ planned, ∀ inner ∈ planned, outer.covers inner = true →
      FillsAscribed program setting outer inner :=
    fun outer isOuter inner => fillsAscribed_of_covers isText nested inText braced isOuter
  have isDropped : dropped = (sortBy precedes planned).filter (isCovered planned) :=
    dropped_applyEdits_of_laminar ranges laminar
  have mem_dropped_iff {edit : Edit} (member : edit ∈ planned) :
      edit ∈ dropped ↔ isCovered planned edit = true := by
    rw [isDropped, List.mem_filter, mem_sortBy]
    exact and_iff_right member
  refine ⟨ranges, laminar, ascribed, isDropped, ?_, ?_⟩
  · intro function member edit isEdit
    rcases exists_isNewBinding isText member isEdit with ⟨node, body, isNew⟩
    have isPlanned : edit ∈ planned := newBinding_mem_edits member isEdit
    refine ⟨isPlanned, fun judgement judged injected => ?_⟩
    have isReplaced : .replace judgement.access.span judgement.name.toList ∈ planned := by
      apply replacement_mem_edits judged
      rw [injected]
      rfl
    refine ⟨isReplaced, ?_⟩
    rw [mem_dropped_iff isPlanned, mem_dropped_iff isReplaced]
    exact isNew.isCovered_iff isText nested inText braced judged injected
  · intro noType
    have uncovered : ∀ outer ∈ planned, ∀ inner ∈ planned, ¬ outer.covers inner = true := by
      intro outer isOuter inner isInner covers
      rcases ascribed outer isOuter inner isInner covers with
        ⟨_, pattern, isPattern, isAscribed, _⟩
      rw [noType pattern isPattern] at isAscribed
      cases isAscribed
    constructor
    · apply laminar.imp_of_mem
      rintro first second isFirst isSecond (apart | covered | covering)
      · exact apart
      · exact absurd covered (uncovered first isFirst second isSecond)
      · exact absurd covering (uncovered second isSecond first isFirst)
    · rw [isDropped, List.filter_eq_nil_iff]
      intro edit isEdit isCovered
      rcases isCovered_iff.1 isCovered with ⟨outer, isOuter, covers⟩
      exact uncovered outer isOuter edit (mem_sortBy.1 isEdit) covers

/-- A read behind an empty pattern, and one that starts the body of a nested function. -/
def filledReads : Option Program :=
  parseProgram .plain
    "function f() { const {} = this.props; g(this.props.a);
      return () => { this.props.b(); }; }".toList

/-- The sample has four edits, two of them at the same offset, and none is dropped. -/
theorem edits_are_dropped_in_ascribed_types_in_filledReads :
    ∃ program, filledReads = some program ∧
      (Transform.propsToDestructuring.plan program .standard).edits.map Edit.span =
        [⟨40, 52⟩, ⟨21, 23⟩, ⟨76, 88⟩, ⟨76, 76⟩] ∧
      (applyEdits program.source
        (Transform.propsToDestructuring.plan program .standard).edits).dropped = [] := by
  obtain ⟨program, parsed, isText, nested, inText, braced, spans, noType⟩ : ∃ program ∈ filledReads,
      program.root.kind = .program ∧ program.root.isNested = true ∧
        program.root.isInText program.source = true ∧
        program.root.arePatternsBraced = true ∧
        (Transform.propsToDestructuring.plan program .standard).edits.map Edit.span =
          [⟨40, 52⟩, ⟨21, 23⟩, ⟨76, 88⟩, ⟨76, 76⟩] ∧
        ∀ node ∈ program.root.nodes, node.isAscribedEmpty = false := by
    decide +kernel
  rcases edits_are_dropped_in_ascribed_types program .standard isText nested inText braced with
    ⟨_, _, _, _, _, applied⟩
  exact ⟨program, parsed, spans, (applied noType).2⟩

/-- The read in the ascribed type is replaced, and the replacement is dropped. -/
theorem ascribed_read_drops_replacement :
    ∃ program, parseProgram (.ofPath "a.ts") ascribedRead = some program ∧
      (applyEdits program.source
        (Transform.propsToDestructuring.plan program .standard).edits).dropped =
        [.replace ⟨69, 81⟩ ['x']] := by
  exact Option.map_eq_some_iff.1 (by decide +kernel)

end Destructure

end Codemod
