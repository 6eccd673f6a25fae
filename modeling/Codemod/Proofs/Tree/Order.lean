import Codemod.Proofs.Edit.Covering
import Codemod.Proofs.Tree.Nesting

/-!
# The order of the nodes of a tree

Where spans nest, two nodes of a tree stand apart unless one is a node of the
other (`mem_nodes_or_isApart`).  A list of the nodes has each of them before
those that stand in it and before those that follow it (`pairwise_nodes`); this
tells two occurrences of one node from each other, which spans do not.
-/

namespace Codemod

theorem Span.isApart_symm {first second : Span} (apart : first.isApart second = true) :
    second.isApart first = true :=
  isApart_iff.2 (isApart_iff.1 apart).symm

/-- What lies in spans that stand apart stands apart. -/
theorem Span.isApart_of_contains {first second inner other : Span}
    (apart : first.isApart second = true) (inFirst : first.contains inner = true)
    (inSecond : second.contains other = true) : inner.isApart other = true := by
  rw [isApart_iff] at apart ⊢
  rw [contains_iff] at inFirst inSecond
  omega

/-- Spans that stand apart have no text in common. -/
theorem Span.not_isApart_of_contains {first second inner : Span}
    (notEmpty : inner.start < inner.stop) (inFirst : first.contains inner = true)
    (inSecond : second.contains inner = true) : ¬ first.isApart second = true := by
  rw [isApart_iff]
  rw [contains_iff] at inFirst inSecond
  omega

namespace Node

variable {node root first second inner : Node}

/-- Different statements of a list stand apart. -/
theorem isApart_of_ne {statements : List Node}
    (ordered : statements.Pairwise fun earlier later => earlier.span.stop ≤ later.span.start)
    (isFirst : first ∈ statements) (isSecond : second ∈ statements) (different : first ≠ second) :
    first.span.isApart second.span = true := by
  rw [Span.isApart_iff]
  apply Decidable.byContradiction
  intro overlap
  exact different (eq_of_overlap ordered isFirst isSecond (by omega) (by omega))

theorem ordered_bodyStatements {body : Node} (nested : body.isNested = true) :
    body.bodyStatements.Pairwise fun earlier later => earlier.span.stop ≤ later.span.start :=
  (ordered_children nested).filter _

/-- No statement of a body starts before the first one. -/
theorem head_start_le {body first : Node} (nested : body.isNested = true)
    (isFirst : body.bodyStatements.head? = some first) {statement : Node}
    (member : statement ∈ body.bodyStatements) :
    first.span.start ≤ statement.span.start := by
  have ordered := ordered_bodyStatements nested
  have isChild : first ∈ body.children := (List.mem_filter.1 (List.mem_of_mem_head? isFirst)).1
  have forward := start_le_stop (isNested_of_mem_children nested isChild)
  obtain ⟨others, split⟩ := List.head?_eq_some_iff.1 isFirst
  rw [split] at member ordered
  rcases List.mem_cons.1 member with rfl | isOther
  · exact Nat.le_refl _
  · exact Nat.le_trans forward ((List.pairwise_cons.1 ordered).1 statement isOther)

/-- What stands in one part of a node stands in another part or apart from it. -/
theorem mem_nodes_or_isApart_of_children (nested : node.isNested = true) {child part : Node}
    (isChild : child ∈ node.children) (isInner : inner ∈ child.nodes)
    (isPart : part ∈ node.children) :
    inner ∈ part.nodes ∨ part.span.isApart inner.span = true := by
  by_cases apart : part.span.isApart child.span = true
  · right
    apply Span.isApart_of_contains apart (Span.contains_refl _)
    exact contains_of_mem_nodes (isNested_of_mem_children nested isChild) isInner
  · left
    rw [Span.isApart_iff] at apart
    obtain rfl : part = child :=
      eq_of_overlap (ordered_children nested) isPart isChild (by omega) (by omega)
    exact isInner

theorem mem_nodes_or_isApart_of_kind_ne (nested : node.isNested = true)
    (isInner : inner ∈ node.nodes) (different : inner.kind ≠ node.kind) {part : Node}
    (isPart : part ∈ node.children) :
    inner ∈ part.nodes ∨ part.span.isApart inner.span = true := by
  rcases mem_nodes_cases isInner with rfl | ⟨child, isChild, inChild⟩
  · exact absurd rfl different
  · exact mem_nodes_or_isApart_of_children nested isChild inChild isPart

/-- Two nodes stand apart unless one is a node of the other. -/
theorem mem_nodes_or_isApart (nested : root.isNested = true) (isFirst : first ∈ root.nodes)
    (isSecond : second ∈ root.nodes) :
    first ∈ second.nodes ∨ second ∈ first.nodes ∨
      first.span.isApart second.span = true := by
  induction root using Node.induction with
  | step kind span children ih =>
    rcases mem_nodes_cases isFirst with rfl | ⟨firstPart, isFirstPart, inFirst⟩
    · exact Or.inr (Or.inl isSecond)
    rcases mem_nodes_cases isSecond with rfl | ⟨secondPart, isSecondPart, inSecond⟩
    · exact Or.inl isFirst
    have partNested := isNested_of_mem_children nested isFirstPart
    rcases mem_nodes_or_isApart_of_children nested isSecondPart inSecond isFirstPart with
      inPart | apart
    · exact ih firstPart isFirstPart partNested inFirst inPart
    · right; right
      exact Span.isApart_of_contains apart (contains_of_mem_nodes partNested inFirst)
        (Span.contains_refl _)

/-- A node stands in a part of another one, or behind it. -/
def IsBefore (first second : Node) : Prop :=
  (∃ child ∈ first.children, second ∈ child.nodes) ∨ first.span.stop ≤ second.span.start

theorem pairwise_nodes (nested : root.isNested = true) : root.nodes.Pairwise IsBefore := by
  induction root using Node.induction with
  | step kind span children ih =>
    rcases kind.reference_cases with ⟨name, rfl⟩ | notReference
    · rw [nodes_reference]
      exact List.pairwise_singleton _ _
    rw [nodes_mk notReference, List.pairwise_cons, List.pairwise_flatMap]
    refine ⟨?_, ?_, ?_⟩
    · intro inner isInner
      exact Or.inl (List.mem_flatMap.1 isInner)
    · intro child isChild
      exact ih child isChild (isNested_of_mem_children nested isChild)
    · apply (ordered_children nested).imp_of_mem
      intro earlier later isEarlier isLater apart inEarlier isFirst inLater isSecond
      have starts := contains_of_mem_nodes (isNested_of_mem_children nested isEarlier) isFirst
      have stops := contains_of_mem_nodes (isNested_of_mem_children nested isLater) isSecond
      rw [Span.contains_iff] at starts stops
      right
      omega

/-- The nodes in a chain that are no chains themselves have no parts. -/
theorem children_eq_nil_of_chain?_eq_none (nested : node.isNested = true)
    {chain : MemberChain} (isChain : node.chain? = some chain) (member : inner ∈ node.nodes)
    (noChain : inner.chain? = none) : inner.children = [] := by
  induction node using Node.induction generalizing chain with
  | step kind span children ih =>
    rcases mem_nodes_cases member with rfl | ⟨child, isChild, inChild⟩
    · rw [isChain] at noChain
      cases noChain
    have own := own_of_isNested nested
    unfold chain? at isChain
    split at isChain
    · next same =>
      cases same
      rw [List.isEmpty_iff.1 own] at isChild
      cases isChild
    · next same =>
      cases same
      rw [nodes_reference, List.mem_singleton] at member
      subst member
      simp [chain?] at noChain
    · next property _ object others same =>
      cases same
      rcases Option.map_eq_some_iff.1 isChain with ⟨shorter, isShorter, _⟩
      rcases List.mem_cons.1 isChild with rfl | isOther
      · exact ih child List.mem_cons_self
          (isNested_of_mem_children nested List.mem_cons_self) isShorter inChild
      · have childless := (own_of_member nested).2 child isOther
        rcases mem_nodes_cases inChild with rfl | ⟨deeper, isDeeper, _⟩
        · exact childless
        · rw [childless] at isDeeper
          cases isDeeper
    · cases isChain

end Node

end Codemod
