import Codemod.Tree.Node

/-!
# Occurrences in trees

An occurrence of a node in a tree is a path of child numbers, so that two equal
nodes at different places are told apart.
-/

namespace Codemod.Node

/-- What holds of a node whenever it holds of its parts holds of every node. -/
theorem induction {motive : Node → Prop}
    (step : ∀ kind span children, (∀ child ∈ children, motive child) →
      motive (mk kind span children)) :
    ∀ node, motive node
  | mk kind span children =>
    step kind span children fun child _ => induction step child

/-- The node that a path leads to. -/
def at? : Node → List Nat → Option Node
  | node, [] => some node
  | mk _ _ children, index :: path =>
    match children[index]? with
    | some child => child.at? path
    | none => none

@[simp]
theorem at?_nil (node : Node) : node.at? [] = some node := by
  cases node
  rfl

theorem at?_cons_eq_some_iff {kind : Kind} {span : Span} {children : List Node}
    {index : Nat} {path : List Nat} {node : Node} :
    (mk kind span children).at? (index :: path) = some node ↔
      ∃ child, children[index]? = some child ∧ child.at? path = some node := by
  rw [at?]
  cases children[index]? <;> simp

theorem at?_of_getElem? {node child inner : Node} {index : Nat} {path : List Nat}
    (isChild : node.children[index]? = some child) (reached : child.at? path = some inner) :
    node.at? (index :: path) = some inner := by
  cases node
  exact at?_cons_eq_some_iff.2 ⟨child, isChild, reached⟩

/-- What the parts of a node take over from it holds of everything below. -/
theorem at?_induction {motive : Node → Prop} {root node : Node} {path : List Nat}
    (step : ∀ {kind span children}, motive (mk kind span children) →
      ∀ child ∈ children, motive child)
    (holds : motive root) (reached : root.at? path = some node) : motive node := by
  induction path generalizing root with
  | nil =>
    rw [at?_nil, Option.some.injEq] at reached
    exact reached ▸ holds
  | cons index rest ih =>
    obtain ⟨kind, span, children⟩ := root
    obtain ⟨child, isChild, below⟩ := at?_cons_eq_some_iff.1 reached
    exact ih (step holds child (List.mem_of_getElem? isChild)) below

end Codemod.Node
