import Codemod.Proofs.Scope.Binders

/-!
# The shape of trees

A tree of nodes may have any parts below a node.  The trees of a grammar do not:
a name that is used has no parts, a property of a pattern is a name or a key with
a value, and parameters stand where parameters may stand.  `isWellShaped` asks this
of every node of a tree.
-/

namespace Codemod.Node

/-- Whether a node of one kind may stand below a node of another kind. -/
def mayHave (kind : Kind) : Kind → Bool
  | .catchParameter => kind == .catchClause
  | .parameter _ => kind == .parameters
  | _ => true

/-- Whether the parts of a node are of the number and of the kinds that its kind asks for. -/
def arePartsShaped (kind : Kind) (children : List Node) : Bool :=
  (children.all fun child => mayHave kind child.kind) &&
    match kind with
    | .reference _ => children.isEmpty
    | .patternProperty true _ => children.length == 1
    | .patternProperty false _ => children.length == 2
    | .rest => children.length == 1
    | .objectPattern =>
      children.all fun child => child.kind.isPatternPart || child.kind == .typeAscription
    | _ => true

/-- Whether the parts of all nodes of a tree are of the right number and kinds. -/
def isWellShaped : Node → Bool :=
  fold fun kind _ children =>
    arePartsShaped kind (children.map (·.1)) && children.all (·.2)

variable {kind : Kind} {span : Span} {children : List Node} {root node : Node}

theorem isWellShaped_mk : (mk kind span children).isWellShaped = true ↔
      arePartsShaped kind children = true ∧ ∀ child ∈ children, child.isWellShaped = true := by
  simp [isWellShaped, Function.comp_def]

theorem isWellShaped_at? (shaped : root.isWellShaped = true) {place : List Nat}
    (reached : root.at? place = some node) : node.isWellShaped = true :=
  at?_induction (motive := (·.isWellShaped = true)) (fun shaped => (isWellShaped_mk.1 shaped).2)
    shaped reached

/-- A name that is used has no parts. -/
theorem children_of_reference {name : String}
    (shaped : (mk (.reference name) span children).isWellShaped = true) : children = [] := by
  have own := (isWellShaped_mk.1 shaped).1
  simp only [arePartsShaped, Bool.and_eq_true, List.isEmpty_iff] at own
  exact own.2

end Codemod.Node
