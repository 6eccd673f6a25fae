import Codemod.Proofs.Context.Finding
import Codemod.Proofs.Tree.Position
import Codemod.Proofs.Tree.Shape
import Codemod.Text.Lines

/-!
# Trees as texts spell them

In the trees of texts a name takes up room, and one that is used stands on one
line.  An arrow function takes up room and ends with its body, a property that is
only a name is nothing but the name, and variables are exported with nothing else.
`isLegible` asks this of every node of a tree, together with what goes without
saying: `this`, `super` and names that are used have no parts.
-/

namespace Codemod.Node

/-- Whether the parts of a node are a name that takes up the whole node. -/
def isLoneName (span : Span) : List Node → Bool
  | [mk (.reference _) inner _] => inner == span
  | _ => false

/-- Whether variables, if they come first among the parts of a node, are the only part. -/
def areVariablesAlone : List Node → Bool
  | mk (.variableList _) _ _ :: others => others.isEmpty
  | _ => true

/-- What is asked of the parts of a node and of the text that it stands for. -/
def arePartsLegible (source : List Char) (kind : Kind) (span : Span) (children : List Node) :
    Bool :=
  match kind with
  | .reference _ =>
    span.start < span.stop && !Text.isMultiline source span.start span.stop && children.isEmpty
  | .thisExpression => children.isEmpty
  | .superExpression => children.isEmpty
  | .arrow _ hasExpressionBody =>
    span.start < span.stop &&
      (hasExpressionBody || children.getLast?.any fun body => body.kind == .functionBody)
  | .binding _ => span.start < span.stop
  | .property .shorthand _ => isLoneName span children
  | .exportNamed => areVariablesAlone children
  | _ => true

/-- Whether the nodes of a tree are as a text spells them. -/
def isLegible (source : List Char) : Node → Bool :=
  fold fun kind span children =>
    arePartsLegible source kind span (children.map (·.1)) && children.all (·.2)

variable {source : List Char} {kind : Kind} {span : Span} {children : List Node}
  {root node : Node} {place : Place}

theorem isLegible_mk : (mk kind span children).isLegible source = true ↔
      arePartsLegible source kind span children = true ∧
        ∀ child ∈ children, child.isLegible source = true := by
  simp [isLegible, Function.comp_def]

theorem isLegible_at? (legible : root.isLegible source = true)
    (reached : root.at? place = some node) : node.isLegible source = true :=
  at?_induction (motive := (·.isLegible source = true)) (fun legible => (isLegible_mk.1 legible).2)
    legible reached

/-- A name that is used stands on one line and has no parts. -/
theorem reference_of_isLegible {name : String}
    (legible : (mk (.reference name) span children).isLegible source = true) :
    span.start < span.stop ∧ Text.isMultiline source span.start span.stop = false ∧
      children = [] := by
  have own := (isLegible_mk.1 legible).1
  simpa [arePartsLegible, and_assoc] using own

theorem arrow_of_isLegible {isAsync hasExpressionBody : Bool}
    (legible : (mk (.arrow isAsync hasExpressionBody) span children).isLegible source = true) :
    span.start < span.stop ∧ (hasExpressionBody = true ∨
      ∃ body, children.getLast? = some body ∧ body.kind = .functionBody) := by
  have own := (isLegible_mk.1 legible).1
  simpa [arePartsLegible, Option.any_eq_true] using own

theorem binding_of_isLegible {name : String}
    (legible : (mk (.binding name) span children).isLegible source = true) :
    span.start < span.stop :=
  of_decide_eq_true (isLegible_mk.1 legible).1

/-- A property that is only a name has the name as its only part. -/
theorem shorthand_of_isLegible {isComputed : Bool}
    (legible : (mk (.property .shorthand isComputed) span children).isLegible source = true) :
    ∃ name, children = [mk (.reference name) span []] := by
  have own : isLoneName span children = true := (isLegible_mk.1 legible).1
  have deeper := (isLegible_mk.1 legible).2
  unfold isLoneName at own
  split at own
  · next name inner parts =>
    obtain rfl : inner = span := beq_iff_eq.1 own
    obtain ⟨_, _, rfl⟩ := reference_of_isLegible (deeper _ List.mem_cons_self)
    exact ⟨name, rfl⟩
  · cases own

/-- Below a property that is only a name there is only the name. -/
theorem place_below_shorthand (legible : root.isLegible source = true)
    (reached : root.at? place = some node) {isComputed : Bool}
    (isShorthand : node.kind = .property .shorthand isComputed) {below : Place} {inner : Node}
    (isInner : root.at? below = some inner) (isBelow : place <+: below) :
    below = place ∨ below = place ++ [0] ∧ ∃ name, inner = mk (.reference name) node.span [] := by
  obtain ⟨rest, rfl⟩ := isBelow
  rw [at?_append, reached, Option.bind_some] at isInner
  obtain ⟨kind, span, children⟩ := node
  obtain rfl : kind = .property .shorthand isComputed := isShorthand
  obtain ⟨name, rfl⟩ := shorthand_of_isLegible (isLegible_at? legible reached)
  rcases rest with _ | ⟨index, rest⟩
  · exact Or.inl (List.append_nil place)
  · obtain ⟨child, isChild, deeper⟩ := at?_cons_eq_some_iff.1 isInner
    obtain ⟨rfl, rfl⟩ : index = 0 ∧ child = mk (.reference name) span [] := by
      cases index with
      | zero => exact ⟨rfl, (Option.some.inj isChild).symm⟩
      | succ index => cases isChild
    cases rest with
    | nil =>
      rw [at?_nil, Option.some.injEq] at deeper
      exact Or.inr ⟨rfl, name, deeper.symm⟩
    | cons index rest => cases deeper

/-- Variables are exported with nothing else. -/
theorem variables_of_isLegible {keyword : VariableKeyword} {inner : Span}
    {declarators others : List Node} (legible : (mk .exportNamed span
      (mk (.variableList keyword) inner declarators :: others)).isLegible source = true) :
    others = [] :=
  List.isEmpty_iff.1 (isLegible_mk.1 legible).1

/-- The uses of the function that a survey could look into have no parts. -/
theorem passes_eq_looksInto (legible : (mk kind span children).isLegible source = true)
    {index : Nat} {child : Node} (isChild : children[index]? = some child) :
    Context.passes true kind index child = Context.looksInto kind index child := by
  have own := (isLegible_mk.1 legible).1
  have notEmpty : children ≠ [] := List.ne_nil_of_mem (List.mem_of_getElem? isChild)
  cases isUse : kind.usesFunction with
  | false => simp [Context.passes, Context.follows, isUse]
  | true =>
    unfold Kind.usesFunction at isUse
    split at isUse
    · exact absurd (List.isEmpty_iff.1 own) notEmpty
    · exact absurd (List.isEmpty_iff.1 own) notEmpty
    · rfl
    · exact absurd (reference_of_isLegible legible).2.2 notEmpty
    · cases isUse

/-- In a legible tree, a survey comes to all that it looks into. -/
theorem leadsThrough_passes_eq (legible : node.isLegible source = true) (path : List Nat) :
    node.leadsThrough (Context.passes true) path = node.isSurveyed path := by
  rw [isSurveyed]
  induction path generalizing node with
  | nil => rw [leadsThrough_nil, leadsThrough_nil]
  | cons index path ih =>
    obtain ⟨kind, span, children⟩ := node
    rw [leadsThrough, leadsThrough]
    cases isChild : children[index]? with
    | none => rfl
    | some child =>
      have below := (isLegible_mk.1 legible).2 child (List.mem_of_getElem? isChild)
      dsimp only
      rw [passes_eq_looksInto legible isChild, ih below]

end Codemod.Node

namespace Codemod

/-- The tree of a program is as its text spells it. -/
structure Program.IsSpelled (program : Program) : Prop where
  isText : program.root.kind = .program
  shaped : program.root.isWellShaped = true
  nested : program.root.isNested = true
  inText : program.root.isInText program.source = true
  legible : program.root.isLegible program.source = true

instance (program : Program) : Decidable program.IsSpelled :=
  decidable_of_iff
    (program.root.kind = .program ∧ program.root.isWellShaped = true ∧
      program.root.isNested = true ∧ program.root.isInText program.source = true ∧
      program.root.isLegible program.source = true)
    ⟨fun ⟨isText, shaped, nested, inText, legible⟩ => ⟨isText, shaped, nested, inText, legible⟩,
      fun ⟨isText, shaped, nested, inText, legible⟩ => ⟨isText, shaped, nested, inText, legible⟩⟩

/-- Whether a node of this kind is a literal whose text must not be touched. -/
def Kind.isLiteral : Kind → Bool
  | stringLiteral _ => true
  | template => true
  | _ => false

/-- Whether a node of this kind is a property that is only a name. -/
def Kind.isShorthand : Kind → Bool
  | property .shorthand _ => true
  | _ => false

theorem Kind.isShorthand_iff {kind : Kind} :
    kind.isShorthand = true ↔ ∃ isComputed, kind = .property .shorthand isComputed := by
  constructor
  · intro holds
    unfold isShorthand at holds
    split at holds
    · exact ⟨_, rfl⟩
    · cases holds
  · rintro ⟨isComputed, rfl⟩
    rfl

namespace Context

variable {source : List Char} {node : Node} {span : Span}

theorem isFinding_literal (span : Span) :
    IsFinding (fun survey => span ∈ survey.literals) true where
  empty := List.not_mem_nil
  append := fun _ _ => List.mem_append
  nested := by simp [Survey.nested]

theorem isFinding_shorthand (span : Span) :
    IsFinding (fun survey => span ∈ survey.shorthands) true where
  empty := List.not_mem_nil
  append := fun _ _ => List.mem_append
  nested := by simp [Survey.nested]

theorem mem_literals_ownSurvey {kind : Kind} {own : Span} :
    span ∈ (ownSurvey kind own).literals ↔ kind.isLiteral = true ∧ own = span := by
  unfold ownSurvey
  split
  case h_10 =>
    have notLiteral : kind.isLiteral = false := by
      unfold Kind.isLiteral
      split <;> simp_all
    simp [notLiteral, Survey.empty]
  all_goals
    simp [Kind.isLiteral, Survey.empty, Survey.thisUse, Survey.contextUse, eq_comm]

theorem mem_shorthands_ownSurvey {kind : Kind} {own : Span} :
    span ∈ (ownSurvey kind own).shorthands ↔ kind.isShorthand = true ∧ own = span := by
  unfold ownSurvey
  split
  case h_10 =>
    have notShorthand : kind.isShorthand = false := by
      unfold Kind.isShorthand
      split <;> simp_all
    simp [notShorthand, Survey.empty]
  all_goals
    simp [Kind.isShorthand, Survey.empty, Survey.thisUse, Survey.contextUse, eq_comm]

/-- The literals that a survey finds are those that it comes to. -/
theorem mem_literals_survey_iff (legible : node.isLegible source = true) :
    span ∈ node.survey.literals ↔ ∃ path word, node.at? path = some word ∧
      word.kind.isLiteral = true ∧ word.span = span ∧ node.isSurveyed path = true := by
  rw [(isFinding_literal span).survey_iff]
  simp only [mem_literals_ownSurvey, Node.leadsThrough_passes_eq legible, and_assoc]

/-- The properties that a survey finds are those that it comes to. -/
theorem mem_shorthands_survey_iff (legible : node.isLegible source = true) :
    span ∈ node.survey.shorthands ↔ ∃ path word, node.at? path = some word ∧
      word.kind.isShorthand = true ∧ word.span = span ∧ node.isSurveyed path = true := by
  rw [(isFinding_shorthand span).survey_iff]
  simp only [mem_shorthands_ownSurvey, Node.leadsThrough_passes_eq legible, and_assoc]

end Context

end Codemod
