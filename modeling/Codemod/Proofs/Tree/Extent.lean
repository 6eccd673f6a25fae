import Codemod.Proofs.Edit.Splicing
import Codemod.Proofs.Tree.Nesting

/-!
# Spans that are ranges of a text

The spans of a tree that was read from a text cut no character of it.  With
spans that nest, every node stands for a range of the text, and so does what
stands between two parts of a node.
-/

namespace Codemod.Node

open Edit

/-- Whether the spans of a tree start and end between characters of a text. -/
def isInText (source : List Char) : Node → Bool :=
  fold fun _ span children =>
    Text.isBoundary source span.start && Text.isBoundary source span.stop &&
      children.all (·.2)

variable {source : List Char} {node : Node}

theorem isInText_mk {kind : Kind} {span : Span} {children : List Node} :
    (mk kind span children).isInText source = true ↔
      (Text.isBoundary source span.start = true ∧ Text.isBoundary source span.stop = true) ∧
        ∀ child ∈ children, child.isInText source = true := by
  simp [isInText, fold_mk]

theorem isInText_of_mem_children (inText : node.isInText source = true) {child : Node}
    (isChild : child ∈ node.children) : child.isInText source = true := by
  rcases node with ⟨kind, span, children⟩
  exact (isInText_mk.1 inText).2 child isChild

theorem isInText_of_mem_nodes (inText : node.isInText source = true) {inner : Node}
    (member : inner ∈ node.nodes) : inner.isInText source = true := by
  induction node using Node.induction with
  | step kind span children ih =>
    rcases mem_nodes_cases member with rfl | ⟨child, isChild, isInner⟩
    · exact inText
    · exact ih child isChild (isInText_of_mem_children inText isChild) isInner

/-- A node of a nested tree in a text stands for a range of the text. -/
theorem isRange_span (nested : node.isNested = true) (inText : node.isInText source = true) :
    IsRange source node.span := by
  rcases node with ⟨kind, span, children⟩
  rcases (isInText_mk.1 inText).1 with ⟨startBoundary, stopBoundary⟩
  exact ⟨start_le_stop nested, Text.le_byteLength_of_isBoundary stopBoundary, startBoundary,
    stopBoundary⟩

end Codemod.Node
