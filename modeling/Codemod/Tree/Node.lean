import Codemod.Span
import Codemod.Tree.Kind

/-!
# Syntax trees

A program is a tree of nodes, each with its kind, the span of text that it
covers and its parts in the order in which they are walked.  `Node.fold` is the
one recursion over trees: every analysis of this library is a fold, so that
what holds of all programs is proved by one induction.
-/

namespace Codemod

inductive Node where
  | mk (kind : Kind) (span : Span) (children : List Node)
  deriving Repr

namespace Node

def kind : Node → Kind
  | mk kind _ _ => kind

/-- The text the node covers. -/
def span : Node → Span
  | mk _ span _ => span

/-- The parts of the node, in walking order. -/
def children : Node → List Node
  | mk _ _ children => children

@[simp]
theorem kind_mk (kind : Kind) (span : Span) (children : List Node) :
    (mk kind span children).kind = kind := rfl

@[simp]
theorem span_mk (kind : Kind) (span : Span) (children : List Node) :
    (mk kind span children).span = span := rfl

@[simp]
theorem children_mk (kind : Kind) (span : Span) (children : List Node) :
    (mk kind span children).children = children := rfl

mutual

/--
Combine a tree bottom up: `step` sees a node's kind and span, and each child
together with the child's own result.
-/
def fold {α : Type} (step : Kind → Span → List (Node × α) → α) : Node → α
  | mk kind span children => step kind span (foldAll step children)

/-- The children of a node with their results. -/
def foldAll {α : Type} (step : Kind → Span → List (Node × α) → α) :
    List Node → List (Node × α)
  | [] => []
  | child :: rest => (child, fold step child) :: foldAll step rest

end

@[simp]
theorem fold_mk {α : Type} (step : Kind → Span → List (Node × α) → α)
    (kind : Kind) (span : Span) (children : List Node) :
    fold step (mk kind span children) =
      step kind span (children.map fun child => (child, fold step child)) := by
  have pairs : ∀ nodes : List Node,
      foldAll step nodes = nodes.map fun child => (child, fold step child) := by
    intro nodes
    induction nodes with
    | nil => rfl
    | cons child rest ih => simp [foldAll, ih]
  rw [fold, pairs]

/-- The first child that answers a question, with its answer. -/
def findChild (ask : Kind → Bool) (node : Node) : Option Node :=
  node.children.find? fun child => ask child.kind

/-- A node within parentheses, however many stand around it. -/
def withoutParentheses (node : Node) : Node :=
  match node with
  | mk .parenthesized _ [inner] => withoutParentheses inner
  | other => other

end Node

end Codemod
