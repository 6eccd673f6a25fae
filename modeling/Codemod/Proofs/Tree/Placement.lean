import Codemod.Tree.Node

/-!
# Where declarations of variables may stand

A declaration of variables is a statement.  Statements stand in bodies, blocks
and branches, and below an expression only inside a function or a static block.
`Node.isWellPlaced` states this of a tree, with what its spans have to do with
it: a statement lies inside the statement around it, a pattern inside its
declarator, and the statements of a body follow one another.

Trees that are read from a text are of this form; nothing here is asked of
expressions, types or markup beyond that they hold no statements.
-/

namespace Codemod

namespace Kind

/--
Whether variables may be declared in a node of this kind without a function
or a static block around them.
-/
def mayDeclare : Kind → Bool
  | program => true
  | functionBody => true
  | block => true
  | variableList _ => true
  | ifStatement => true
  | doWhile => true
  | whileStatement => true
  | forStatement => true
  | forIn => true
  | forOf => true
  | withStatement => true
  | switchStatement => true
  | switchCase _ => true
  | labeled => true
  | tryStatement => true
  | catchClause => true
  | exportNamed => true
  | exportDefault => true
  | namespaceDeclaration => true
  | namespaceBody => true
  | _ => false

/-- Whether a node of this kind keeps the variables declared in it to itself. -/
def isClosed : Kind → Bool
  | function _ => true
  | arrow _ _ => true
  | staticBlock => true
  | _ => false

/-- Whether the parts of a node of this kind have to lie inside its span. -/
def encloses : Kind → Bool
  | declarator => true
  | objectPattern => true
  | patternProperty _ _ => true
  | kind => kind.mayDeclare

theorem encloses_of_mayDeclare {kind : Kind} (declares : kind.mayDeclare = true) :
    kind.encloses = true := by
  unfold encloses
  split
  all_goals first | rfl | exact declares

end Kind

namespace Node

/-- Whether among statements there is nothing but the body of a function. -/
def hasOneBody (declaring : List Node) : Bool :=
  match declaring with
  | [] => true
  | [body] => body.kind == .functionBody
  | _ => false

/-- The parts of a node that may declare variables. -/
def declaring (children : List Node) : List Node :=
  children.filter fun child => child.kind.mayDeclare

/-- What is asked of the parts of nodes of some kinds only. -/
def areOwnPartsPlaced (kind : Kind) (span : Span) (children : List Node) : Bool :=
  match kind with
  | .binding _ => span.start < span.stop
  | .functionBody =>
    decide (children.Pairwise fun first second =>
      first.span.stop ≤ second.span.start)
  | .function _ => hasOneBody (declaring children)
  | .arrow _ true => (declaring children).isEmpty
  | .arrow _ false => hasOneBody (declaring children)
  | .variableList _ => (declaring children).isEmpty
  | .declarator => children.head?.all fun child => child.kind != .patternDefault
  | _ => true

/-- Whether the parts of a node are where a node of its kind may have them. -/
def arePartsPlaced (kind : Kind) (span : Span) (children : List Node) : Bool :=
  (children.all fun child => child.kind != .program) &&
    (kind.mayDeclare || kind.isClosed || (declaring children).isEmpty) &&
    (!kind.encloses || children.all fun child => span.contains child.span) &&
    areOwnPartsPlaced kind span children

/-- Whether all nodes of a tree have their parts where they may have them. -/
def isWellPlaced : Node → Bool :=
  fold fun kind span children =>
    arePartsPlaced kind span (children.map (·.1)) && children.all (·.2)

theorem isWellPlaced_mk {kind : Kind} {span : Span} {children : List Node} :
    (mk kind span children).isWellPlaced = true ↔ arePartsPlaced kind span children = true ∧
        ∀ child ∈ children, child.isWellPlaced = true := by
  simp [isWellPlaced, Function.comp_def]

/-! ## What a well-placed node says -/

variable {kind : Kind} {span : Span} {children : List Node} {child : Node}

theorem mem_declaring :
    child ∈ declaring children ↔ child ∈ children ∧ child.kind.mayDeclare = true :=
  List.mem_filter

/-- Where no part may declare variables, none does. -/
theorem mayDeclare_eq_false_of_isEmpty (none_ : (declaring children).isEmpty = true)
    (member : child ∈ children) : child.kind.mayDeclare = false := by
  simp only [declaring, List.isEmpty_iff, List.filter_eq_nil_iff, Bool.not_eq_true] at none_
  exact none_ child member

section

variable (placed : arePartsPlaced kind span children = true)
include placed

/-- Below an expression or a type no statement stands, functions aside. -/
theorem mayDeclare_of_arePartsPlaced (isOpen : kind.isClosed = false) (member : child ∈ children)
    (declares : child.kind.mayDeclare = true) : kind.mayDeclare = true := by
  simp only [arePartsPlaced, Bool.and_eq_true, Bool.or_eq_true, isOpen,
    Bool.false_eq_true, or_false] at placed
  rcases placed.1.1.2 with own | none_
  · exact own
  · rw [mayDeclare_eq_false_of_isEmpty none_ member] at declares
    cases declares

/-- The parts of an enclosing node lie inside its span. -/
theorem contains_of_arePartsPlaced (encloses : kind.encloses = true) (member : child ∈ children) :
    span.contains child.span = true := by
  simp only [arePartsPlaced, Bool.and_eq_true, encloses, Bool.not_true,
    Bool.false_or, List.all_eq_true] at placed
  exact placed.1.2 child member

/-- No text stands inside another one. -/
theorem notProgram_of_arePartsPlaced (member : child ∈ children) : child.kind ≠ .program := by
  simp only [arePartsPlaced, Bool.and_eq_true, List.all_eq_true, bne_iff_ne] at placed
  exact placed.1.1.1 child member

theorem own_of_arePartsPlaced : areOwnPartsPlaced kind span children = true := by
  simp only [arePartsPlaced, Bool.and_eq_true] at placed
  exact placed.2

end

end Node

end Codemod
