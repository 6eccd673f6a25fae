import Codemod.Proofs.Destructure.Injection
import Codemod.Proofs.Scope.Uses
import Codemod.Proofs.Tree.Order

/-!
# New names are bound before they are used

The text that binds a new name stands before every access that becomes the
name.  Where a pattern takes the name up, the planner has compared the access
with the end of the whole statement; where a declaration follows the call of
the parent constructor, with the end of the call.  A declaration at the top of
the body is compared with nothing: there it matters that spans nest.  The
access lies in the span of the body, so it is a node of the body, and what holds
it is one of the statements, none of which starts before the first one.
-/

namespace Codemod

namespace Node

/-! ## Bodies -/

theorem mem_children_of_body? {node body : Node} (isBody : node.body? = some body) :
    body ∈ node.children := by
  unfold body? at isBody
  split at isBody
  · exact List.mem_of_find?_eq_some isBody
  · exact List.mem_of_getLast? isBody
  · exact List.mem_of_find?_eq_some isBody
  · cases isBody

theorem mem_nodes_of_body? {node body : Node} (isBody : node.body? = some body) :
    body ∈ node.nodes := by
  have isChild := mem_children_of_body? isBody
  obtain ⟨kind, span, children⟩ := node
  refine mem_nodes_of_mem_children ?_ isChild (mem_nodes_self body)
  rintro name rfl
  cases isBody

variable {use : MemberChain × Span}

/-- A use of a chain in a body stands in one of its statements. -/
theorem exists_statement_of_mem_uses {body : Node} (nested : body.isNested = true)
    (isBody : body.kind = .functionBody) (member : use ∈ body.uses) :
    ∃ statement ∈ body.bodyStatements, use ∈ statement.uses := by
  obtain ⟨kind, span, children⟩ := body
  obtain rfl : kind = .functionBody := isBody
  rw [uses_mk (by simp)] at member
  obtain ⟨child, isChild, inChild⟩ := List.mem_flatMap.1 member
  refine ⟨child, List.mem_filter.2 ⟨isChild, ?_⟩, inChild⟩
  have noDirective (isDirective : child.kind = .directive ∨ child.kind = .hashbang) : False := by
    rw [uses_eq_nil_of_directive (isNested_of_mem_children nested isChild) isDirective]
      at inChild
    cases inChild
  simp only [Bool.and_eq_true, bne_iff_ne]
  exact ⟨fun same => noDirective (Or.inl same), fun same => noDirective (Or.inr same)⟩

/-- A use of a chain in a body starts no earlier than the first statement. -/
theorem exists_head_start_le {body : Node} (nested : body.isNested = true)
    (isBody : body.kind = .functionBody) (member : use ∈ body.uses) :
    ∃ first, body.bodyStatements.head? = some first ∧
      first.span.start ≤ use.2.start := by
  obtain ⟨statement, isStatement, inStatement⟩ := exists_statement_of_mem_uses nested isBody member
  have notEmpty : body.bodyStatements ≠ [] := List.ne_nil_of_mem isStatement
  refine ⟨_, List.head?_eq_some_head notEmpty, ?_⟩
  have before := head_start_le nested (List.head?_eq_some_head notEmpty) isStatement
  have isChild : statement ∈ body.children := List.mem_of_mem_filter isStatement
  have inside := contains_of_mem_uses (isNested_of_mem_children nested isChild) inStatement
  exact Nat.le_trans before (Span.contains_iff.1 inside).1

/-! ## Patterns -/

/-- The object pattern that a destructuring is read off. -/
structure IsPatternOf (destructuring : Destructuring) (pattern : Node) : Prop where
  kind : pattern.kind = .objectPattern
  span : pattern.span = destructuring.pattern
  last : ∀ stop ∈ destructuring.lastEnd, ∃ part ∈ pattern.children, part.span.stop = stop
  empty : destructuring.lastEnd = none → ∀ part ∈ pattern.children,
    ∀ isShorthand isComputed, part.kind ≠ .patternProperty isShorthand isComputed
  rest : destructuring.hasRest = false → ∀ part ∈ pattern.children, part.kind ≠ .rest

/-- The pattern of a declarator of a statement. -/
structure IsDeclaredBy (statement pattern : Node) : Prop where
  kind : ∃ keyword, statement.kind = .variableList keyword
  declarator : ∃ declarator ∈ statement.children, declarator.kind = .declarator ∧
    pattern ∈ declarator.children

theorem IsDeclaredBy.mem_nodes {statement pattern : Node}
    (isDeclared : IsDeclaredBy statement pattern) : pattern ∈ statement.nodes := by
  obtain ⟨keyword, isList⟩ := isDeclared.kind
  obtain ⟨declarator, isDeclarator, isKind, isPattern⟩ := isDeclared.declarator
  apply mem_nodes_of_part (by simp [isList]) isDeclarator
  exact mem_nodes_of_part (by simp [isKind]) isPattern (mem_nodes_self pattern)

variable {destructuring : Destructuring}

theorem exists_isPatternOf_of_destructuring? {declarator : Node} {statement : Span}
    (isTaking : destructuring? statement declarator = some destructuring) :
    destructuring.statement = statement ∧ declarator.kind = .declarator ∧
      ∃ pattern ∈ declarator.children, IsPatternOf destructuring pattern := by
  unfold destructuring? at isTaking
  split at isTaking
  · next span patternSpan parts others =>
    cases isTaking
    refine ⟨rfl, rfl, mk .objectPattern patternSpan parts, List.mem_cons_self, ?_⟩
    constructor
    · rfl
    · rfl
    · intro stop isLast
      obtain ⟨property, isProperty, rfl⟩ := Option.map_eq_some_iff.1 isLast
      exact ⟨property, List.mem_of_mem_filter (List.mem_of_getLast? isProperty), rfl⟩
    · intro isEmpty part isPart isShorthand isComputed isProperty
      have noProperties := List.getLast?_eq_none_iff.1 (Option.map_eq_none_iff.1 isEmpty)
      have isSkipped := List.filter_eq_nil_iff.1 noProperties part isPart
      rw [isProperty] at isSkipped
      exact isSkipped rfl
    · intro noRest part isPart isRest
      have isOther := List.any_eq_false.1 noRest part isPart
      rw [isRest] at isOther
      exact isOther rfl
  · cases isTaking

theorem exists_isPatternOf_of_mem_destructurings {statements : List Node}
    (member : destructuring ∈ destructurings statements) :
    ∃ statement ∈ statements, destructuring.statement = statement.span ∧
      ∃ pattern, IsDeclaredBy statement pattern ∧ IsPatternOf destructuring pattern := by
  obtain ⟨statement, isStatement, isTaking⟩ := List.mem_flatMap.1 member
  refine ⟨statement, isStatement, ?_⟩
  split at isTaking
  · next keyword span declarators =>
    obtain ⟨declarator, isDeclarator, isTaking⟩ := List.mem_filterMap.1 isTaking
    obtain ⟨rfl, isKind, pattern, isPattern, isPatternOf⟩ :=
      exists_isPatternOf_of_destructuring? isTaking
    exact ⟨rfl, pattern, ⟨⟨keyword, rfl⟩, declarator, isDeclarator, isKind, isPattern⟩, isPatternOf⟩
  · cases isTaking

end Node

namespace Destructure

open ScopeTable

variable {program : Program} {options : TransformOptions} {function : FunctionRecord}
  {judgement : Judgement} {body : Node}

section

variable (isBody : IsBodyOf program function body)
include isBody

theorem IsBodyOf.mem_nodes : body ∈ program.root.nodes := by
  obtain ⟨node, lists, isBody⟩ := isBody.node
  exact Node.mem_nodes_trans (List.mem_of_mem_filter lists.mem) (Node.mem_nodes_of_body? isBody)

theorem IsBodyOf.mem_nodes_of_mem_bodyStatements {statement : Node}
    (member : statement ∈ body.bodyStatements) :
    statement ∈ program.root.nodes := by
  have isKind := isBody.kind
  refine Node.mem_nodes_trans isBody.mem_nodes ?_
  have isChild : statement ∈ body.children := List.mem_of_mem_filter member
  obtain ⟨kind, span, children⟩ := body
  obtain rfl : kind = .functionBody := isKind
  exact Node.mem_nodes_of_mem_children (by simp) isChild (Node.mem_nodes_self statement)

theorem IsBodyOf.superStatement_eq :
    function.superStatement = Node.superStatement? body.bodyStatements := by
  obtain ⟨span, isShape⟩ := isBody.shape
  rw [isShape]
  rfl

theorem IsBodyOf.firstStatement_eq : function.firstStatement =
      body.bodyStatements.head?.map fun statement => statement.span.start := by
  obtain ⟨span, isShape⟩ := isBody.shape
  rw [isShape]
  rfl

end

/-- An access stands in the body of its owner. -/
theorem Judged.mem_uses_body (nested : program.root.isNested = true)
    (judged : Judged (.ofProgram program options) function judgement)
    (isBody : IsBodyOf program function body) :
    judgement.access.use ∈ body.uses := by
  obtain ⟨member, _, owner, _⟩ := judged.candidate (wellFormed_ofProgram program options)
  apply Node.mem_uses_of_contains nested isBody.mem_nodes (use_mem_uses member)
  obtain ⟨span, isShape⟩ := isBody.shape
  have holds := owner.holds
  rw [isShape] at holds
  exact holds

variable {setting : Setting}

/-- No access becomes a name before the parent constructor has returned. -/
theorem Judged.stop_le_of_super (wellFormed : setting.table.WellFormed)
    (judged : Judged setting function judgement) (replaced : judgement.verdict.isReplaced = true)
    {call : Span} (isCall : function.superStatement = some call) :
    call.stop ≤ judgement.access.span.start := by
  obtain ⟨_, _, _, isVerdict⟩ := judged.candidate wellFormed
  have behind := ((verdict_eq_iff replaced).1 isVerdict.symm).2.2.1
  rw [isBeforeSuper, isCall, Option.any_some] at behind
  exact Nat.not_lt.1 (of_decide_eq_false behind)

/--
An edit that binds names in a body before an offset: in the pattern that takes
them up, else behind the call of the parent constructor, else at the start of
the first statement.
-/
structure BindsBefore (setting : Setting) (body : Node) (offset : Nat) (edit : Edit) :
    Prop where
  before : edit.stop ≤ offset
  target : ∀ target, IsFirstOpen (topPatterns setting body) target →
    target.statement.contains edit.span = true ∧ target.statement.stop ≤ offset
  super : (∀ target, ¬ IsFirstOpen (topPatterns setting body) target) →
    ∀ call, Node.superStatement? body.bodyStatements = some call →
      edit.span = ⟨call.stop, call.stop⟩ ∧ call.stop ≤ offset
  first : (∀ target, ¬ IsFirstOpen (topPatterns setting body) target) →
    Node.superStatement? body.bodyStatements = none →
      ∃ statement, body.bodyStatements.head? = some statement ∧
        edit.span = ⟨statement.span.start, statement.span.start⟩ ∧
        statement.span.start ≤ offset

/-- Names are added to a pattern inside its statement. -/
theorem contains_mergeEdit (nested : program.root.isNested = true)
    (isBody : IsBodyOf program function body) {target : Destructuring}
    (member : target ∈ topPatterns setting body) (names : List String) :
    target.statement.contains (mergeEdit setting target names).span = true := by
  obtain ⟨statement, isStatement, isSpan, pattern, isDeclared, isPatternOf⟩ :=
    Node.exists_isPatternOf_of_mem_destructurings (List.mem_of_mem_filter member)
  have isPattern := isDeclared.mem_nodes
  have statementNested := Node.isNested_of_mem_nodes nested
    (isBody.mem_nodes_of_mem_bodyStatements isStatement)
  have patternNested := Node.isNested_of_mem_nodes statementNested isPattern
  have inStatement := Node.contains_of_mem_nodes statementNested isPattern
  rw [isPatternOf.span, ← isSpan] at inStatement
  rw [mergeEdit]
  split
  · exact inStatement
  · next stop isLast =>
    obtain ⟨part, isPart, rfl⟩ := isPatternOf.last stop isLast
    have inPattern := Node.contains_of_mem_children patternNested isPart
    have forward := Node.start_le_stop (Node.isNested_of_mem_children patternNested isPart)
    rw [isPatternOf.span, Span.contains_iff] at inPattern
    apply Span.contains_trans inStatement
    exact Span.contains_iff.2 ⟨Nat.le_trans inPattern.1 forward, inPattern.2⟩

theorem bindsBefore_mergeEdit (nested : program.root.isNested = true)
    (isBody : IsBodyOf program function body) {target : Destructuring}
    (found : mergeTarget? setting function = some target) {offset : Nat}
    (behind : target.statement.stop ≤ offset) (names : List String) :
    BindsBefore setting body offset (mergeEdit setting target names) := by
  have isTarget {other : Destructuring} :
      IsFirstOpen (topPatterns setting body) other ↔ target = other := by
    rw [← isBody.propsPatterns_eq, ← mergeTarget?_eq_some_iff, found, Option.some.injEq]
  have member : target ∈ topPatterns setting body := by
    rw [← isBody.propsPatterns_eq]
    exact List.mem_of_find?_eq_some found
  have inside := contains_mergeEdit nested isBody member names
  constructor
  · rw [Span.contains_iff] at inside
    exact Nat.le_trans inside.2 behind
  · intro other isFirst
    obtain rfl := isTarget.1 isFirst
    exact ⟨inside, behind⟩
  · intro untaken
    exact absurd (isTarget.2 rfl) (untaken target)
  · intro untaken
    exact absurd (isTarget.2 rfl) (untaken target)

theorem bindsBefore_declarationEdit? (isBody : IsBodyOf program function body)
    (untaken : mergeTarget? setting function = none) {offset : Nat}
    (behindSuper : ∀ call, function.superStatement = some call → call.stop ≤ offset)
    (behindFirst : ∀ first, body.bodyStatements.head? = some first → first.span.start ≤ offset)
    {names : List String} {edit : Edit}
    (isEdit : declarationEdit? setting function names = some edit) :
    BindsBefore setting body offset edit := by
  have noTarget (target : Destructuring)
      (isFirst : IsFirstOpen (topPatterns setting body) target) : False := by
    rw [← isBody.propsPatterns_eq, ← mergeTarget?_eq_some_iff, untaken] at isFirst
    cases isFirst
  rw [declarationEdit?_eq] at isEdit
  cases isSuper : function.superStatement with
  | some call =>
    rw [isSuper] at isEdit
    cases isEdit
    have isCall := isBody.superStatement_eq.symm.trans isSuper
    have stands := behindSuper call isSuper
    constructor
    · exact stands
    · intro target isFirst
      exact absurd isFirst (noTarget target)
    · intro _ other isOther
      obtain rfl := Option.some.inj (isCall.symm.trans isOther)
      exact ⟨rfl, stands⟩
    · intro _ isNone
      rw [isCall] at isNone
      cases isNone
  | none =>
    rw [isSuper, isBody.firstStatement_eq, Option.map_map] at isEdit
    obtain ⟨first, isFirst, rfl⟩ := Option.map_eq_some_iff.1 isEdit
    have noCall := isBody.superStatement_eq.symm.trans isSuper
    have stands := behindFirst first isFirst
    constructor
    · exact stands
    · intro target isTarget
      exact absurd isTarget (noTarget target)
    · intro _ call isCall
      rw [noCall] at isCall
      cases isCall
    · intro _ _
      exact ⟨first, isFirst, rfl, stands⟩

/--
In a text whose spans nest, the edit that binds a new name stands before every
access that becomes the name, and no access becomes a name before the call of
the parent constructor has ended.
-/
theorem new_names_are_bound_before_use (program : Program) (options : TransformOptions)
    (isText : program.root.kind = .program) (nested : program.root.isNested = true)
    {function : FunctionRecord} {judgement : Judgement}
    (judged : Judged (.ofProgram program options) function judgement) :
    let setting := Setting.ofProgram program options
    let names := newNames setting function
    ∃ node body, Lists program.root function node ∧ node.body? = some body ∧
      (judgement.verdict = .injected → ∃ edit,
        edit ∈ (planFunction setting (candidates setting) function).edits ∧
        judgement.name ∈ names ∧
        BindsNames setting (topPatterns setting body) names edit ∧
        BindsBefore setting body judgement.access.span.start edit) ∧
      (judgement.verdict.isReplaced = true →
        ∀ call, Node.superStatement? body.bodyStatements = some call →
          call.stop ≤ judgement.access.span.start) := by
  intro setting names
  have wellFormed := wellFormed_ofProgram program options
  obtain ⟨body, isBodyOf⟩ := judged.exists_body isText
  obtain ⟨node, lists, isBody⟩ := isBodyOf.node
  have behindSuper (replaced : judgement.verdict.isReplaced = true) (call : Span)
      (isCall : function.superStatement = some call) :
      call.stop ≤ judgement.access.span.start :=
    judged.stop_le_of_super wellFormed replaced isCall
  refine ⟨node, body, lists, isBody, fun injected => ?_, fun replaced call isCall => ?_⟩
  · have replaced : judgement.verdict.isReplaced = true := by rw [injected]; rfl
    have isNew : judgement.name ∈ names :=
      (mem_newNames_iff judged.member).2 ⟨judgement, judged, injected, rfl⟩
    obtain ⟨edit, isEdit, binds⟩ :=
      exists_bindingEdit? wellFormed judged.member (List.ne_nil_of_mem isNew)
    have emitted : edit ∈ (planFunction setting (candidates setting) function).edits :=
      List.mem_append_right _ (Option.mem_toList.2 isEdit)
    rw [isBodyOf.propsPatterns_eq] at binds
    refine ⟨edit, emitted, isNew, binds, ?_⟩
    have unblocked := judged.unblocked_of_injected wellFormed injected
    have free := (injectionBlocker?_eq_none_iff.1 unblocked).2
    have isEdit := (bindingEdit?_eq_some_iff.1 isEdit).2
    cases found : mergeTarget? setting function with
    | some target =>
      rw [found] at free isEdit
      rw [← isEdit]
      exact bindsBefore_mergeEdit nested isBodyOf found free.2 names
    | none =>
      rw [found] at isEdit
      apply bindsBefore_declarationEdit? isBodyOf found (behindSuper replaced) _ isEdit
      intro first isFirst
      obtain ⟨head, isHead, stands⟩ := Node.exists_head_start_le
        (Node.isNested_of_mem_nodes nested isBodyOf.mem_nodes) isBodyOf.kind
        (judged.mem_uses_body nested isBodyOf)
      obtain rfl := Option.some.inj (isHead.symm.trans isFirst)
      exact stands
  · exact behindSuper replaced call (isBodyOf.superStatement_eq.trans isCall)

/-- A read behind a directive and a statement. -/
def directedRead : Option Program :=
  parseProgram .plain ("function f() \x7b 'use strict'; g(); " ++
    "return this.props.x; \x7d").toList

/-- The name of the sample is bound between the directive and the first statement. -/
theorem new_names_are_bound_before_use_in_directedRead :
    ∃ program, directedRead = some program ∧ program.root.isNested = true ∧
      ∃ function judgement edit, Judged (.ofProgram program .standard) function judgement ∧
      judgement.verdict = .injected ∧ judgement.access.span.start = 41 ∧
      edit ∈ (planFunction (.ofProgram program .standard)
        (candidates (.ofProgram program .standard)) function).edits ∧
      edit.stop ≤ 41 := by
  obtain ⟨program, parsed, isText, nested, function, member, judgement, judged, injected, starts⟩ :
      ∃ program ∈ directedRead, program.root.kind = .program ∧ program.root.isNested = true ∧
        ∃ function ∈ (Setting.ofProgram program .standard).table.functions,
        ∃ judgement ∈ judgements (.ofProgram program .standard)
          (candidates (.ofProgram program .standard)) function,
          judgement.verdict = .injected ∧ judgement.access.span.start = 41 := by
    decide +kernel
  obtain ⟨_, _, _, _, bound, _⟩ := new_names_are_bound_before_use program .standard isText
    nested ⟨member, judged⟩
  obtain ⟨edit, emitted, _, _, binds⟩ := bound injected
  exact ⟨program, parsed, nested, function, judgement, edit, ⟨member, judged⟩, injected,
    starts, emitted, starts ▸ binds.before⟩

/-- A pattern whose declaration goes on with a read of a property that it lacks. -/
def pairedDeclarators : List Char :=
  "function f(){ const { a } = this.props, y = this.props.x; return this.props.x; }".toList

/--
The first run keeps the read inside the declaration of the sample, since the new name
counts as bound where the declaration ends.  The second run finds the name bound in
the pattern, which ends before that read, and replaces the read.
-/
theorem second_run_replaces_kept_read :
    ∃ first second,
      Transform.propsToDestructuring.run .plain .standard pairedDeclarators = some first ∧
      first.text =
        "function f(){ const { a, x } = this.props, y = this.props.x; return x; }".toList ∧
      Transform.propsToDestructuring.run .plain .standard first.text = some second ∧
      second.text = "function f(){ const { a, x } = this.props, y = x; return x; }".toList := by
  obtain ⟨first, isFirst, firstText, second, isSecond, secondText⟩ :
      ∃ first ∈ Transform.propsToDestructuring.run .plain .standard pairedDeclarators,
        first.text =
          "function f(){ const { a, x } = this.props, y = this.props.x; return x; }".toList ∧
        ∃ second ∈ Transform.propsToDestructuring.run .plain .standard first.text,
          second.text =
            "function f(){ const { a, x } = this.props, y = x; return x; }".toList := by
    decide +kernel
  exact ⟨first, second, isFirst, firstText, isSecond, secondText⟩

end Destructure

end Codemod
