import Codemod.Proofs.Destructure.Outcomes
import Codemod.Proofs.Tree.Extent

/-!
# Where new bindings stand

The edit that binds the new names of a function stands at a border of a
statement of its body, behind a part of a pattern that such a statement
declares, or in place of a whole pattern (`BindsAt`).  Edits of the first two
kinds replace no text, and they stand between the parts of a node, so they are
inside no use of a chain and no function but those around the body.  An edit of
the third kind reaches what stands in the parts of the pattern, and nothing else
(`FillsAround`).
-/

namespace Codemod

/-- The kinds of the nodes on the way from a body to a pattern that it declares. -/
def Kind.leadsToPattern : Kind → Bool
  | .functionBody => true
  | .variableList _ => true
  | .declarator => true
  | .objectPattern => true
  | _ => false

theorem Kind.ne_of_leadsToPattern {first second : Kind}
    (isOther : first.leadsToPattern = false) (leads : second.leadsToPattern = true) :
    first ≠ second := by
  rintro rfl
  rw [leads] at isOther
  cases isOther

theorem Kind.leadsToPattern_of_isFunction {kind : Kind} (isFunction : kind.isFunction = true) :
    kind.leadsToPattern = false := by
  cases kind <;> first | rfl | cases isFunction

namespace Node

variable {root body statement pattern inner : Node}

/-- Whether the parts of each object pattern stand behind its brace. -/
def arePatternsBraced (root : Node) : Bool :=
  root.nodes.all fun node => node.kind != .objectPattern ||
    node.children.all fun part => node.span.start < part.span.start

theorem start_lt_of_arePatternsBraced (braced : root.arePatternsBraced = true)
    (isPattern : pattern ∈ root.nodes) (isKind : pattern.kind = .objectPattern) {part : Node}
    (isPart : part ∈ pattern.children) : pattern.span.start < part.span.start := by
  have own := List.all_eq_true.1 braced pattern isPattern
  rw [isKind, bne_self_eq_false, Bool.false_or, List.all_eq_true] at own
  exact of_decide_eq_true (own part isPart)

/-- What stands in a statement stands in a pattern that it declares or apart from it. -/
theorem IsDeclaredBy.mem_nodes_or_isApart (isDeclared : IsDeclaredBy statement pattern)
    (nested : statement.isNested = true) (isInner : inner ∈ statement.nodes)
    (isOther : inner.kind.leadsToPattern = false) :
    inner ∈ pattern.nodes ∨ pattern.span.isApart inner.span = true := by
  rcases isDeclared.kind with ⟨keyword, isList⟩
  rcases isDeclared.declarator with ⟨declarator, isDeclarator, isKind, isPattern⟩
  have declaratorNested := isNested_of_mem_children nested isDeclarator
  have notList := Kind.ne_of_leadsToPattern isOther
    (show statement.kind.leadsToPattern = true by rw [isList]; rfl)
  have notDeclarator := Kind.ne_of_leadsToPattern isOther
    (show declarator.kind.leadsToPattern = true by rw [isKind]; rfl)
  rcases mem_nodes_or_isApart_of_kind_ne nested isInner notList isDeclarator with
    inDeclarator | apart
  · exact mem_nodes_or_isApart_of_kind_ne declaratorNested inDeclarator notDeclarator isPattern
  · right
    exact Span.isApart_of_contains apart
      (contains_of_mem_children declaratorNested isPattern) (Span.contains_refl _)

end Node

namespace Destructure

open ScopeTable Edit

variable {patterns : List Destructuring} {root body pattern inner : Node} {span : Span}

/-- A pattern of a body that has no properties and is the first that may take some up. -/
structure IsFilled (patterns : List Destructuring) (body pattern : Node) : Prop where
  target : ∃ target, IsFirstOpen patterns target ∧ target.lastEnd = none ∧
    Node.IsPatternOf target pattern
  declared : ∃ statement ∈ body.children, Node.IsDeclaredBy statement pattern

/-- The places where the names of a body are bound. -/
inductive BindsAt (patterns : List Destructuring) (body : Node) : Span → Prop
  /-- At a border of a statement. -/
  | statement {statement : Node} {offset : Nat} (isStatement : statement ∈ body.children)
      (border : offset = statement.span.start ∨ offset = statement.span.stop) :
      BindsAt patterns body ⟨offset, offset⟩
  /-- Behind a part of a pattern. -/
  | part {statement pattern part : Node} (isStatement : statement ∈ body.children)
      (isDeclared : Node.IsDeclaredBy statement pattern)
      (isKind : pattern.kind = .objectPattern) (isPart : part ∈ pattern.children) :
      BindsAt patterns body ⟨part.span.stop, part.span.stop⟩
  /-- In place of a whole pattern. -/
  | pattern {pattern : Node} (isFilled : IsFilled patterns body pattern) :
      BindsAt patterns body pattern.span

/-- A pattern is filled, and a node stands in one of its parts. -/
def FillsAround (patterns : List Destructuring) (body : Node) (span : Span) (inner : Node) :
    Prop :=
  ∃ pattern, IsFilled patterns body pattern ∧ pattern.span = span ∧
    ∃ part ∈ pattern.children, inner ∈ part.nodes

theorem IsFilled.kind (isFilled : IsFilled patterns body pattern) :
    pattern.kind = .objectPattern := by
  rcases isFilled.target with ⟨target, _, _, isPatternOf⟩
  exact isPatternOf.kind

theorem IsFilled.mem_nodes (isFilled : IsFilled patterns body pattern)
    (isBody : body.kind = .functionBody) : pattern ∈ body.nodes := by
  rcases isFilled.declared with ⟨statement, isStatement, isDeclared⟩
  exact Node.mem_nodes_of_part (by simp [isBody]) isStatement isDeclared.mem_nodes

namespace BindsAt

section

variable (placed : BindsAt patterns body span)
include placed

/-- Names are bound in a statement of the body. -/
theorem exists_statement (nested : body.isNested = true) :
    ∃ statement ∈ body.children, statement.span.contains span = true := by
  cases placed with
  | @statement statement offset isStatement border =>
    have forward := Node.start_le_stop (Node.isNested_of_mem_children nested isStatement)
    refine ⟨statement, isStatement, Span.contains_iff.2 ⟨?_, ?_⟩⟩
    · rcases border with rfl | rfl
      · exact Nat.le_refl _
      · exact forward
    · rcases border with rfl | rfl
      · exact forward
      · exact Nat.le_refl _
  | @part statement pattern part isStatement isDeclared _ isPart =>
    have statementNested := Node.isNested_of_mem_children nested isStatement
    have isPattern := isDeclared.mem_nodes
    have patternNested := Node.isNested_of_mem_nodes statementNested isPattern
    have forward := Node.start_le_stop (Node.isNested_of_mem_children patternNested isPart)
    have inside := Span.contains_trans (Node.contains_of_mem_nodes statementNested isPattern)
      (Node.contains_of_mem_children patternNested isPart)
    rw [Span.contains_iff] at inside
    refine ⟨statement, isStatement, Span.contains_iff.2 ⟨?_, inside.2⟩⟩
    exact Nat.le_trans inside.1 forward
  | @pattern pattern isFilled =>
    rcases isFilled.declared with ⟨statement, isStatement, isDeclared⟩
    exact ⟨statement, isStatement, Node.contains_of_mem_nodes
      (Node.isNested_of_mem_children nested isStatement) isDeclared.mem_nodes⟩

theorem contains (nested : body.isNested = true) : body.span.contains span = true := by
  rcases placed.exists_statement nested with ⟨statement, isStatement, inside⟩
  exact Span.contains_trans (Node.contains_of_mem_children nested isStatement) inside

theorem isRange {source : List Char} (nested : body.isNested = true)
    (inText : body.isInText source = true) :
    IsRange source span := by
  have inStatement {statement node : Node} (isStatement : statement ∈ body.children)
      (isNode : node ∈ statement.nodes) :
      node.isNested = true ∧ node.isInText source = true :=
    ⟨Node.isNested_of_mem_nodes (Node.isNested_of_mem_children nested isStatement) isNode,
      Node.isInText_of_mem_nodes (Node.isInText_of_mem_children inText isStatement) isNode⟩
  cases placed with
  | @statement statement offset isStatement border =>
    rcases inStatement isStatement (Node.mem_nodes_self _) with ⟨isNested, isInText⟩
    have whole := Node.isRange_span isNested isInText
    rcases border with rfl | rfl
    · exact ⟨Nat.le_refl _, Nat.le_trans whole.forward whole.inside, whole.startBoundary,
        whole.startBoundary⟩
    · exact ⟨Nat.le_refl _, whole.inside, whole.stopBoundary, whole.stopBoundary⟩
  | @part statement pattern part isStatement isDeclared _ isPart =>
    rcases inStatement isStatement isDeclared.mem_nodes with ⟨isNested, isInText⟩
    have whole := Node.isRange_span (Node.isNested_of_mem_children isNested isPart)
      (Node.isInText_of_mem_children isInText isPart)
    exact ⟨Nat.le_refl _, whole.inside, whole.stopBoundary, whole.stopBoundary⟩
  | @pattern pattern isFilled =>
    rcases isFilled.declared with ⟨statement, isStatement, isDeclared⟩
    rcases inStatement isStatement isDeclared.mem_nodes with ⟨isNested, isInText⟩
    exact Node.isRange_span isNested isInText

/-- An edit in a body reaches the nodes in the parts of a filled pattern, if any. -/
theorem isApart_or_fillsAround (isBody : body.kind = .functionBody) (nested : body.isNested = true)
    (isInner : inner ∈ body.nodes) (isOther : inner.kind.leadsToPattern = false) :
    span.isApart inner.span = true ∨ FillsAround patterns body span inner := by
  have notBody := Kind.ne_of_leadsToPattern isOther
    (show body.kind.leadsToPattern = true by rw [isBody]; rfl)
  have notPattern {pattern : Node} (isKind : pattern.kind = .objectPattern) :
      inner.kind ≠ pattern.kind :=
    Kind.ne_of_leadsToPattern isOther (by rw [isKind]; rfl)
  -- The way down from the body, as far as the statement and then as the pattern.
  have intoStatement {statement : Node} (isStatement : statement ∈ body.children) :=
    Node.mem_nodes_or_isApart_of_kind_ne nested isInner notBody isStatement
  have intoPattern {statement pattern : Node} (isStatement : statement ∈ body.children)
      (isDeclared : Node.IsDeclaredBy statement pattern) :
      inner ∈ pattern.nodes ∨ pattern.span.isApart inner.span = true := by
    have statementNested := Node.isNested_of_mem_children nested isStatement
    rcases intoStatement isStatement with inStatement | apart
    · exact isDeclared.mem_nodes_or_isApart statementNested inStatement isOther
    · right
      exact Span.isApart_of_contains apart
        (Node.contains_of_mem_nodes statementNested isDeclared.mem_nodes)
        (Span.contains_refl _)
  cases placed with
  | @statement statement offset isStatement border =>
    have statementNested := Node.isNested_of_mem_children nested isStatement
    have forward := Node.start_le_stop statementNested
    left
    apply Span.isApart_iff.2
    show offset ≤ inner.span.start ∨ inner.span.stop ≤ offset
    rcases intoStatement isStatement with inStatement | apart
    · have inside := Node.contains_of_mem_nodes statementNested inStatement
      rw [Span.contains_iff] at inside
      omega
    · rw [Span.isApart_iff] at apart
      omega
  | @part statement pattern part isStatement isDeclared isKind isPart =>
    have patternNested := Node.isNested_of_mem_nodes
      (Node.isNested_of_mem_children nested isStatement) isDeclared.mem_nodes
    have inPattern := Node.contains_of_mem_children patternNested isPart
    have partNested := Node.isNested_of_mem_children patternNested isPart
    have forward := Node.start_le_stop partNested
    rw [Span.contains_iff] at inPattern
    left
    apply Span.isApart_iff.2
    show part.span.stop ≤ inner.span.start ∨ inner.span.stop ≤ part.span.stop
    rcases intoPattern isStatement isDeclared with inside | apart
    · rcases Node.mem_nodes_or_isApart_of_kind_ne patternNested inside (notPattern isKind)
        isPart with inPart | apart
      · have inside := Node.contains_of_mem_nodes partNested inPart
        rw [Span.contains_iff] at inside
        omega
      · rw [Span.isApart_iff] at apart
        omega
    · rw [Span.isApart_iff] at apart
      omega
  | @pattern pattern isFilled =>
    rcases isFilled.declared with ⟨statement, isStatement, isDeclared⟩
    rcases intoPattern isStatement isDeclared with inside | apart
    · right
      refine ⟨pattern, isFilled, rfl, ?_⟩
      rcases Node.mem_nodes_cases inside with rfl | inPart
      · exact absurd rfl (notPattern isFilled.kind)
      · exact inPart
    · exact Or.inl apart

/-- An edit in a body reaches a use of a chain only in a filled pattern. -/
theorem isApart_or_fillsAround_of_use? (isBody : body.kind = .functionBody)
    (nested : root.isNested = true) (inRoot : body ∈ root.nodes) {node : Node}
    (isNode : node ∈ root.nodes) {use : MemberChain × Span} (isUse : node.use? = some use) :
    span.isApart node.span = true ∨ FillsAround patterns body span node := by
  have bodyNested := Node.isNested_of_mem_nodes nested inRoot
  rcases Node.use?_eq_some_iff.1 isUse with ⟨⟨property, isOptional, isMember⟩, isChain, _⟩
  have isOther : node.kind.leadsToPattern = false := by
    rw [isMember]
    rfl
  rcases Node.mem_nodes_or_isApart nested inRoot isNode with inUse | inBody | apart
  · -- A body with a statement is no part of a chain.
    rcases placed.exists_statement bodyNested with ⟨statement, isStatement, _⟩
    have noChain : body.chain? = none := by
      rcases body with ⟨kind, span, children⟩
      obtain rfl : kind = .functionBody := isBody
      rfl
    rw [Node.children_eq_nil_of_chain?_eq_none (Node.isNested_of_mem_nodes nested isNode)
      isChain inUse noChain] at isStatement
    cases isStatement
  · exact placed.isApart_or_fillsAround isBody bodyNested inBody isOther
  · left
    exact Span.isApart_of_contains apart (placed.contains bodyNested) (Span.contains_refl _)

/-- An edit in a body reaches a later function only in a filled pattern. -/
theorem isApart_or_fillsAround_of_isBefore (isBody : body.kind = .functionBody) {node later : Node}
    (nested : node.isNested = true) (isChild : body ∈ node.children) (before : node.IsBefore later)
    (isOther : later.kind.leadsToPattern = false) :
    span.isApart later.span = true ∨ FillsAround patterns body span later := by
  have bodyNested := Node.isNested_of_mem_children nested isChild
  have inBody := placed.contains bodyNested
  rcases before with ⟨child, inNode, isLater⟩ | behind
  · rcases Node.mem_nodes_or_isApart_of_children nested inNode isLater isChild with
      inside | apart
    · exact placed.isApart_or_fillsAround isBody bodyNested inside isOther
    · left
      exact Span.isApart_of_contains apart inBody (Span.contains_refl _)
  · have inNode := Span.contains_trans (Node.contains_of_mem_children nested isChild) inBody
    rw [Span.contains_iff] at inNode
    left
    rw [Span.isApart_iff]
    omega

end

end BindsAt

theorem FillsAround.mem_nodes (around : FillsAround patterns body span inner)
    (isBody : body.kind = .functionBody) : inner ∈ body.nodes := by
  rcases around with ⟨pattern, isFilled, _, part, isPart, isInner⟩
  apply Node.mem_nodes_trans (isFilled.mem_nodes isBody)
  exact Node.mem_nodes_of_part (by simp [isFilled.kind]) isPart isInner

/-- What stands in a part of a filled pattern starts behind the brace of the pattern. -/
theorem FillsAround.inside (around : FillsAround patterns body span inner)
    (isBody : body.kind = .functionBody) (nested : root.isNested = true)
    (braced : root.arePatternsBraced = true) (inRoot : body ∈ root.nodes) :
    span.start < inner.span.start ∧ inner.span.stop ≤ span.stop := by
  rcases around with ⟨pattern, isFilled, rfl, part, isPart, isInner⟩
  have isPattern := Node.mem_nodes_trans inRoot (isFilled.mem_nodes isBody)
  have patternNested := Node.isNested_of_mem_nodes nested isPattern
  have brace := Node.start_lt_of_arePatternsBraced braced isPattern isFilled.kind isPart
  have inPattern := Node.contains_of_mem_children patternNested isPart
  have inPart := Node.contains_of_mem_nodes
    (Node.isNested_of_mem_children patternNested isPart) isInner
  rw [Span.contains_iff] at inPattern inPart
  exact ⟨Nat.lt_of_lt_of_le brace inPart.1, Nat.le_trans inPart.2 inPattern.2⟩

/-! ## The functions of a text -/

/-- Functions are listed in the order of their nodes. -/
theorem isBefore_of_lists (nested : root.isNested = true) {function other : FunctionRecord}
    {node otherNode : Node} (lists : Lists root function node)
    (otherLists : Lists root other otherNode) (earlier : function.scope < other.scope) :
    node.IsBefore otherNode := by
  rcases lists with ⟨index, isFunction, isNode⟩
  rcases otherLists with ⟨otherIndex, isOther, isOtherNode⟩
  have increasing := (ScopeTable.wellFormed_ofProgram root).functions_increasing
  have ordered : root.functions.Pairwise Node.IsBefore := (Node.pairwise_nodes nested).filter _
  rcases List.getElem?_eq_some_iff.1 isFunction with ⟨_, rfl⟩
  rcases List.getElem?_eq_some_iff.1 isOther with ⟨_, rfl⟩
  rcases List.getElem?_eq_some_iff.1 isNode with ⟨_, rfl⟩
  rcases List.getElem?_eq_some_iff.1 isOtherNode with ⟨_, rfl⟩
  rcases Nat.lt_trichotomy index otherIndex with isEarlier | rfl | isLater
  · exact List.pairwise_iff_getElem.1 ordered _ _ _ _ isEarlier
  · exact absurd earlier (Nat.lt_irrefl _)
  · have later := List.pairwise_iff_getElem.1 increasing _ _ ‹_› ‹_› isLater
    exact absurd earlier (Nat.lt_asymm later)

variable {program : Program} {options : TransformOptions} {setting : Setting}
  {function : FunctionRecord} {node : Node} {edit : Edit}

theorem bindsAt_of_newBinding? (isBodyOf : IsBodyOf program function body)
    (isEdit : newBinding? setting function = some edit) :
    BindsAt (propsPatterns setting function) body edit.span := by
  have isBinding := (bindingEdit?_eq_some_iff.1 isEdit).2
  cases found : mergeTarget? setting function with
  | some target =>
    rw [found] at isBinding
    rw [← isBinding]
    have first := mergeTarget?_eq_some_iff.1 found
    have isTarget : target ∈ topPatterns setting body := by
      rw [← isBodyOf.propsPatterns_eq]
      exact List.mem_of_find?_eq_some found
    rcases Node.exists_isPatternOf_of_mem_destructurings (List.mem_of_mem_filter isTarget) with
      ⟨statement, isStatement, _, pattern, isDeclared, isPatternOf⟩
    have isChild : statement ∈ body.children := List.mem_of_mem_filter isStatement
    rw [mergeEdit]
    split
    · next isLast =>
      show BindsAt _ body target.pattern
      rw [← isPatternOf.span]
      exact .pattern ⟨⟨target, first, isLast, isPatternOf⟩, statement, isChild, isDeclared⟩
    · next stop isLast =>
      rcases isPatternOf.last stop isLast with ⟨part, isPart, rfl⟩
      exact .part isChild isDeclared isPatternOf.kind isPart
  | none =>
    rw [found, declarationEdit?_eq] at isBinding
    cases isSuper : function.superStatement with
    | some call =>
      rw [isSuper] at isBinding
      cases isBinding
      have isCall := isBodyOf.superStatement_eq.symm.trans isSuper
      rcases Option.map_eq_some_iff.1 isCall with ⟨statement, isStatement, rfl⟩
      exact .statement (List.mem_of_mem_filter (List.mem_of_find?_eq_some isStatement)) (Or.inr rfl)
    | none =>
      rw [isSuper, isBodyOf.firstStatement_eq, Option.map_map] at isBinding
      rcases Option.map_eq_some_iff.1 isBinding with ⟨first, isFirst, rfl⟩
      exact .statement (List.mem_of_mem_filter (List.mem_of_mem_head? isFirst)) (Or.inl rfl)

/-- A function of a text with the edit that binds its new names. -/
structure IsNewBinding (program : Program) (options : TransformOptions)
    (function : FunctionRecord) (node body : Node) (edit : Edit) : Prop where
  member : function ∈ (ofProgram program.root).functions
  isEdit : newBinding? (.ofProgram program options) function = some edit
  lists : Lists program.root function node
  inBraces : function.hasExpressionBody = false
  hasBody : node.body? = some body
  isBody : IsBodyOf program function body
  placed : BindsAt (propsPatterns (.ofProgram program options) function) body edit.span

theorem exists_isNewBinding (isText : program.root.kind = .program)
    (member : function ∈ (ofProgram program.root).functions)
    (isEdit : newBinding? (.ofProgram program options) function = some edit) :
    ∃ node body, IsNewBinding program options function node body edit := by
  have pending := (bindingEdit?_eq_some_iff.1 isEdit).1
  rcases List.exists_mem_of_ne_nil _ pending with ⟨name, isName⟩
  rcases (mem_newNames_iff member).1 isName with ⟨judgement, judged, _⟩
  rcases judged.candidate (wellFormed_ofProgram program options) with ⟨_, _, owner, _⟩
  rcases exists_isRecord isText member with ⟨node, lists, record⟩
  rcases record.exists_body owner.inBraces with ⟨body, isBody, isKind, isShape⟩
  have isBodyOf : IsBodyOf program function body :=
    ⟨⟨node, lists, isBody⟩, isKind, node.span, isShape⟩
  exact ⟨node, body, member, isEdit, lists, owner.inBraces, isBody, isBodyOf,
    bindsAt_of_newBinding? isBodyOf isEdit⟩

namespace IsNewBinding

variable (isNew : IsNewBinding program options function node body edit)

include isNew

theorem mem_nodes : node ∈ program.root.nodes :=
  List.mem_of_mem_filter isNew.lists.mem

theorem isChild : body ∈ node.children :=
  Node.mem_children_of_body? isNew.hasBody

theorem contains (nested : program.root.isNested = true) : node.span.contains edit.span = true := by
  have nodeNested := Node.isNested_of_mem_nodes nested isNew.mem_nodes
  apply Span.contains_trans (Node.contains_of_mem_children nodeNested isNew.isChild)
  exact isNew.placed.contains (Node.isNested_of_mem_children nodeNested isNew.isChild)

theorem isRange (nested : program.root.isNested = true)
    (inText : program.root.isInText program.source = true) :
    IsRange program.source edit.span :=
  isNew.placed.isRange (Node.isNested_of_mem_nodes nested isNew.isBody.mem_nodes)
    (Node.isInText_of_mem_nodes inText isNew.isBody.mem_nodes)

/-- New bindings reach a use of a chain only in a pattern that they fill. -/
theorem isApart_or_fillsAround_of_use? (nested : program.root.isNested = true) {inner : Node}
    (isInner : inner ∈ program.root.nodes) {use : MemberChain × Span}
    (isUse : inner.use? = some use) :
    edit.span.isApart inner.span = true ∨
      FillsAround (propsPatterns (.ofProgram program options) function) body edit.span inner :=
  isNew.placed.isApart_or_fillsAround_of_use? isNew.isBody.kind nested isNew.isBody.mem_nodes
    isInner isUse

/-- New bindings reach a later function only in a pattern that they fill. -/
theorem isApart_or_fillsAround_of_lists (isText : program.root.kind = .program)
    (nested : program.root.isNested = true) {other : FunctionRecord} {otherNode : Node}
    (lists : Lists program.root other otherNode) (earlier : function.scope < other.scope) :
    edit.span.isApart otherNode.span = true ∨
      FillsAround (propsPatterns (.ofProgram program options) function) body edit.span otherNode :=
  isNew.placed.isApart_or_fillsAround_of_isBefore isNew.isBody.kind
    (Node.isNested_of_mem_nodes nested isNew.mem_nodes) isNew.isChild
    (isBefore_of_lists nested isNew.lists lists earlier)
    (Kind.leadsToPattern_of_isFunction (lists.isRecord isText).isFunction)

/-- An edit that fills a pattern covers what stands in the parts of the pattern. -/
theorem covers (nested : program.root.isNested = true)
    (braced : program.root.arePatternsBraced = true) {inner : Node} {other : Edit}
    (around : FillsAround (propsPatterns (.ofProgram program options) function) body
      edit.span inner) (inside : inner.span.contains other.span = true)
    (early : other.start < edit.stop) : edit.covers other = true := by
  have bounds := around.inside isNew.isBody.kind nested braced isNew.isBody.mem_nodes
  rw [Span.contains_iff] at inside
  exact covers_iff.2 ⟨Nat.lt_of_lt_of_le bounds.1 inside.1, early, Nat.le_trans inside.2 bounds.2⟩

end IsNewBinding

end Destructure

end Codemod
