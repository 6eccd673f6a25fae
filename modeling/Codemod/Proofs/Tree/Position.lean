import Codemod.Proofs.Scope.Places
import Codemod.Proofs.Tree.Extent
import Codemod.Proofs.Tree.Order

/-!
# Places and spans

Where spans nest, the places of nodes say how their spans lie to each other: what
stands below a place lies in the node there (`contains_below`), and nodes of which
none stands below the other stand apart (`isPrefix_or_isApart`).  Two nodes
without parts that take up the same room stand at the same place
(`place_eq_of_span_eq`).
-/

namespace Codemod.Node

variable {root node other : Node} {place first second : Place}

theorem isNested_at? (nested : root.isNested = true)
    (reached : root.at? place = some node) : node.isNested = true :=
  at?_induction (motive := (·.isNested = true)) (fun nested => (isNested_mk.1 nested).2)
    nested reached

theorem isInText_at? {source : List Char} (inText : root.isInText source = true)
    (reached : root.at? place = some node) : node.isInText source = true :=
  at?_induction (motive := (·.isInText source = true)) (fun inText => (isInText_mk.1 inText).2)
    inText reached

theorem contains_at? (nested : root.isNested = true)
    (reached : root.at? place = some node) : root.span.contains node.span = true := by
  induction place generalizing root with
  | nil =>
    rw [at?_nil, Option.some.injEq] at reached
    exact reached ▸ Span.contains_refl _
  | cons index rest ih =>
    obtain ⟨kind, span, children⟩ := root
    obtain ⟨child, isChild, below⟩ := at?_cons_eq_some_iff.1 reached
    have member := List.mem_of_getElem? isChild
    exact Span.contains_trans (contains_of_mem_children nested member)
      (ih ((isNested_mk.1 nested).2 child member) below)

/-- Of two parts of a node, the earlier one ends before the later one starts. -/
theorem stop_le_start (nested : node.isNested = true) {index number : Nat} {part later : Node}
    (isPart : node.children[index]? = some part) (isLater : node.children[number]? = some later)
    (before : index < number) : part.span.stop ≤ later.span.start := by
  obtain ⟨inside, rfl⟩ := List.getElem?_eq_some_iff.1 isPart
  obtain ⟨laterInside, rfl⟩ := List.getElem?_eq_some_iff.1 isLater
  exact List.pairwise_iff_getElem.1 (ordered_children nested) index number inside laterInside before

/-- Below a node without parts there is only the node. -/
theorem eq_of_isPrefix_of_leaf (isNode : root.at? first = some node) (leaf : node.children = [])
    (isOther : root.at? second = some other) (isBelow : first <+: second) : first = second := by
  obtain ⟨rest, rfl⟩ := isBelow
  rw [at?_append, isNode, Option.bind_some] at isOther
  cases rest with
  | nil => exact (List.append_nil first).symm
  | cons index rest =>
    obtain ⟨kind, span, children⟩ := node
    obtain rfl : children = [] := leaf
    obtain ⟨child, isChild, _⟩ := at?_cons_eq_some_iff.1 isOther
    cases isChild

section

variable (nested : root.isNested = true) (isNode : root.at? first = some node)
    (isOther : root.at? second = some other)
include nested isNode isOther

/-- What stands below a node lies in it. -/
theorem contains_below (isBelow : first <+: second) : node.span.contains other.span = true := by
  obtain ⟨rest, rfl⟩ := isBelow
  rw [at?_append, isNode, Option.bind_some] at isOther
  exact contains_at? (isNested_at? nested isNode) isOther

/-- What comes first on the way through a tree ends before what comes later, unless it holds it. -/
theorem stop_le_start_of_lt (before : first < second) (notBelow : ¬ first <+: second) :
    node.span.stop ≤ other.span.start := by
  induction first generalizing root second with
  | nil => exact absurd List.nil_prefix notBelow
  | cons index rest ih =>
    cases second with
    | nil => cases before
    | cons number more =>
      obtain ⟨kind, span, children⟩ := root
      obtain ⟨part, isPart, below⟩ := at?_cons_eq_some_iff.1 isNode
      obtain ⟨later, isLater, belowLater⟩ := at?_cons_eq_some_iff.1 isOther
      have partNested := (isNested_mk.1 nested).2 part (List.mem_of_getElem? isPart)
      have laterNested := (isNested_mk.1 nested).2 later (List.mem_of_getElem? isLater)
      rcases List.cons_lt_cons_iff.1 before with isBefore | ⟨rfl, isBefore⟩
      · have inPart := Span.contains_iff.1 (contains_at? partNested below)
        have inLater := Span.contains_iff.1 (contains_at? laterNested belowLater)
        have ends := stop_le_start nested isPart isLater isBefore
        omega
      · rw [isPart, Option.some.injEq] at isLater
        subst isLater
        refine ih partNested below belowLater isBefore fun isBelow => ?_
        exact notBelow (List.cons_prefix_cons.2 ⟨rfl, isBelow⟩)

/-- Two nodes stand apart unless one of them stands below the other. -/
theorem isPrefix_or_isApart :
    first <+: second ∨ second <+: first ∨ node.span.isApart other.span = true := by
  induction first generalizing root second with
  | nil => exact Or.inl List.nil_prefix
  | cons index rest ih =>
    cases second with
    | nil => exact Or.inr (Or.inl List.nil_prefix)
    | cons number others =>
      obtain ⟨kind, span, children⟩ := root
      obtain ⟨part, isPart, below⟩ := at?_cons_eq_some_iff.1 isNode
      obtain ⟨another, isAnother, belowOther⟩ := at?_cons_eq_some_iff.1 isOther
      have partNested := (isNested_mk.1 nested).2 part (List.mem_of_getElem? isPart)
      have anotherNested := (isNested_mk.1 nested).2 another (List.mem_of_getElem? isAnother)
      have inPart := contains_at? partNested below
      have inAnother := contains_at? anotherNested belowOther
      rcases Nat.lt_trichotomy index number with isBefore | rfl | isBehind
      · have ordered := stop_le_start nested isPart isAnother isBefore
        exact Or.inr (Or.inr (Span.isApart_of_contains
          (Span.isApart_iff.2 (Or.inl ordered)) inPart inAnother))
      · obtain rfl : part = another := Option.some.inj (isPart.symm.trans isAnother)
        rcases ih partNested below belowOther with isBelow | isAbove | apart
        · exact Or.inl (List.cons_prefix_cons.2 ⟨rfl, isBelow⟩)
        · exact Or.inr (Or.inl (List.cons_prefix_cons.2 ⟨rfl, isAbove⟩))
        · exact Or.inr (Or.inr apart)
      · have ordered := stop_le_start nested isAnother isPart isBehind
        exact Or.inr (Or.inr (Span.isApart_of_contains
          (Span.isApart_iff.2 (Or.inr ordered)) inPart inAnother))

/-- A node around one without parts is that node or stands above it, if there is room for it. -/
theorem isPrefix_of_contains_leaf (leaf : other.children = [])
    (inside : node.span.contains other.span = true)
    (notEmpty : other.span.start < other.span.stop) :
    first <+: second := by
  rcases isPrefix_or_isApart nested isNode isOther with isAbove | isBelow | apart
  · exact isAbove
  · have same := eq_of_isPrefix_of_leaf isOther leaf isNode isBelow
    exact same ▸ List.prefix_refl second
  · exact absurd apart (Span.not_isApart_of_contains notEmpty inside (Span.contains_refl _))

/-- Nodes without parts that take up the same room stand at the same place. -/
theorem place_eq_of_span_eq (nodeLeaf : node.children = []) (otherLeaf : other.children = [])
    (same : node.span = other.span) (notEmpty : other.span.start < other.span.stop) :
    first = second :=
  eq_of_isPrefix_of_leaf isNode nodeLeaf isOther
    (isPrefix_of_contains_leaf nested isNode isOther otherLeaf (same ▸ Span.contains_refl _)
      notEmpty)

end

end Codemod.Node
