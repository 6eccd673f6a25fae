import Codemod.Proofs.Scope.Weaving

/-!
# Spans that nest

The spans of a tree nest if the parts of a node lie inside it and follow one
another.  `Node.isNested` asks this of every node of a tree, together with what
goes without saying in a text: a member is longer than its object and has only
a name besides it, `this` has no parts, and a directive holds its literal alone.

In such a tree the spans tell where nodes stand.  A node that is not empty and
lies inside the span of another one is a part of it, or the other way round
(`mem_nodes_or_mem_nodes`).  No two uses of member chains have the same span
(`pairwise_span_ne_of_uses`), and what lies in the span of a use is a shorter
chain (`eq_of_contains_of_length_le`).
-/

namespace Codemod.Node

/-- What is asked of the parts of nodes of some kinds only. -/
def areOwnPartsNested (kind : Kind) (span : Span) (children : List Node) : Bool :=
  match kind, children with
  | .member _ _, object :: others =>
    object.span.start < object.span.stop && object.span.stop < span.stop &&
      others.all fun part => part.children.isEmpty
  | .thisExpression, parts => parts.isEmpty
  | .directive, parts => parts.all fun part => part.children.isEmpty
  | .hashbang, parts => parts.isEmpty
  | _, _ => true

/-- Whether the parts of a node lie inside it and follow one another. -/
def arePartsNested (kind : Kind) (span : Span) (children : List Node) : Bool :=
  decide (span.start ≤ span.stop) &&
    (children.all fun child => span.contains child.span) &&
    decide (children.Pairwise fun first second =>
      first.span.stop ≤ second.span.start) &&
    areOwnPartsNested kind span children

/-- Whether the spans of a tree nest. -/
def isNested : Node → Bool :=
  fold fun kind span children =>
    arePartsNested kind span (children.map (·.1)) && children.all (·.2)

variable {kind : Kind} {span : Span} {children : List Node} {node root : Node}

theorem isNested_mk : (mk kind span children).isNested = true ↔
      arePartsNested kind span children = true ∧ ∀ child ∈ children, child.isNested = true := by
  simp [isNested, fold_mk, Function.comp_def]

variable {child inner outer : Node} {use : MemberChain × Span}

section

variable (nested : node.isNested = true)
include nested

theorem isNested_of_mem_children (member : child ∈ node.children) : child.isNested = true := by
  obtain ⟨kind, span, children⟩ := node
  exact (isNested_mk.1 nested).2 child member

/-- The span of a nested tree does not run backwards. -/
theorem start_le_stop : node.span.start ≤ node.span.stop := by
  obtain ⟨kind, span, children⟩ := node
  have own := (isNested_mk.1 nested).1
  simp only [arePartsNested, Bool.and_eq_true, decide_eq_true_eq] at own
  exact own.1.1.1

theorem contains_of_mem_children (member : child ∈ node.children) :
    node.span.contains child.span = true := by
  obtain ⟨kind, span, children⟩ := node
  have own := (isNested_mk.1 nested).1
  simp only [arePartsNested, Bool.and_eq_true, List.all_eq_true] at own
  exact own.1.1.2 child member

theorem ordered_children :
    node.children.Pairwise fun first second => first.span.stop ≤ second.span.start := by
  obtain ⟨kind, span, children⟩ := node
  have own := (isNested_mk.1 nested).1
  simp only [arePartsNested, Bool.and_eq_true, decide_eq_true_eq] at own
  exact own.1.2

end

theorem own_of_isNested (nested : (mk kind span children).isNested = true) :
    areOwnPartsNested kind span children = true := by
  have own := (isNested_mk.1 nested).1
  simp only [arePartsNested, Bool.and_eq_true] at own
  exact own.2

/-! ## Nodes of a tree -/

theorem mem_nodes_self (node : Node) : node ∈ node.nodes := by
  obtain ⟨kind, span, children⟩ := node
  rw [nodes, fold_mk]
  simp [Function.comp_def]

/-- A node of a tree is the tree itself or a node of one of its parts. -/
theorem mem_nodes_cases (member : inner ∈ node.nodes) :
    inner = node ∨ ∃ child ∈ node.children, inner ∈ child.nodes := by
  obtain ⟨kind, span, children⟩ := node
  rcases kind.reference_cases with ⟨name, rfl⟩ | notReference
  · rw [nodes_reference, List.mem_singleton] at member
    exact Or.inl member
  · rw [nodes_mk notReference, List.mem_cons] at member
    rcases member with isSelf | isDeeper
    · exact Or.inl isSelf
    · exact Or.inr (List.mem_flatMap.1 isDeeper)

theorem mem_nodes_of_mem_children (notReference : ∀ name, kind ≠ .reference name)
    (isChild : child ∈ children) (isInner : inner ∈ child.nodes) :
    inner ∈ (mk kind span children).nodes := by
  rw [nodes_mk notReference]
  exact List.mem_cons_of_mem _ (List.mem_flatMap.2 ⟨child, isChild, isInner⟩)

theorem mem_nodes_of_part (notReference : ∀ name, node.kind ≠ .reference name) {part : Node}
    (isPart : part ∈ node.children) (isInner : inner ∈ part.nodes) :
    inner ∈ node.nodes := by
  obtain ⟨kind, span, children⟩ := node
  exact mem_nodes_of_mem_children notReference isPart isInner

theorem mem_nodes_trans {middle : Node} (isMiddle : middle ∈ outer.nodes)
    (isInner : inner ∈ middle.nodes) : inner ∈ outer.nodes := by
  induction outer using Node.induction with
  | step kind span children ih =>
    rcases kind.reference_cases with ⟨name, rfl⟩ | notReference
    · rw [nodes_reference, List.mem_singleton] at isMiddle
      exact isMiddle ▸ isInner
    · rcases mem_nodes_cases isMiddle with rfl | ⟨child, isChild, inChild⟩
      · exact isInner
      · exact mem_nodes_of_mem_children notReference isChild
          (ih child isChild inChild)

theorem isNested_of_mem_nodes (nested : node.isNested = true) (member : inner ∈ node.nodes) :
    inner.isNested = true := by
  induction node using Node.induction with
  | step kind span children ih =>
    rcases mem_nodes_cases member with rfl | ⟨child, isChild, isInner⟩
    · exact nested
    · exact ih child isChild (isNested_of_mem_children nested isChild) isInner

theorem contains_of_mem_nodes (nested : node.isNested = true) (member : inner ∈ node.nodes) :
    node.span.contains inner.span = true := by
  induction node using Node.induction with
  | step kind span children ih =>
    rcases mem_nodes_cases member with rfl | ⟨child, isChild, isInner⟩
    · exact Span.contains_refl _
    · exact Span.contains_trans (contains_of_mem_children nested isChild)
        (ih child isChild (isNested_of_mem_children nested isChild) isInner)

/-- Nodes that follow one another do not overlap. -/
theorem eq_of_overlap {statements : List Node} {first second : Node}
    (ordered : statements.Pairwise fun earlier later =>
      earlier.span.stop ≤ later.span.start)
    (isFirst : first ∈ statements) (isSecond : second ∈ statements)
    (firstReaches : first.span.start < second.span.stop)
    (secondReaches : second.span.start < first.span.stop) : first = second := by
  obtain ⟨before, after, rfl⟩ := List.append_of_mem isFirst
  rw [List.pairwise_append, List.pairwise_cons] at ordered
  rcases List.mem_append.1 isSecond with isBefore | isRest
  · have apart := ordered.2.2 second isBefore first List.mem_cons_self
    omega
  · rcases List.mem_cons.1 isRest with isSame | isAfter
    · exact isSame.symm
    · have apart := ordered.2.1.1 second isAfter
      omega

/--
Of two nodes of which one is not empty and lies in the span of the other, one
is a node of the other.
-/
theorem mem_nodes_or_mem_nodes (nested : root.isNested = true) (isInner : inner ∈ root.nodes)
    (isOuter : outer ∈ root.nodes) (inside : outer.span.contains inner.span = true)
    (notEmpty : inner.span.start < inner.span.stop) :
    inner ∈ outer.nodes ∨ outer ∈ inner.nodes := by
  induction root using Node.induction with
  | step kind span children ih =>
    rcases mem_nodes_cases isInner with rfl | ⟨first, isFirst, inFirst⟩
    · exact Or.inr isOuter
    rcases mem_nodes_cases isOuter with rfl | ⟨second, isSecond, inSecond⟩
    · exact Or.inl isInner
    -- Both stand in the part around the inner one.
    have firstNested := isNested_of_mem_children nested isFirst
    have firstHolds := contains_of_mem_nodes firstNested inFirst
    have secondHolds := Span.contains_trans
      (contains_of_mem_nodes (isNested_of_mem_children nested isSecond) inSecond) inside
    rw [Span.contains_iff] at firstHolds secondHolds
    obtain rfl : first = second :=
      eq_of_overlap (ordered_children nested) isFirst isSecond (by omega) (by omega)
    exact ih first isFirst firstNested inFirst inSecond

/-! ## Member chains -/

/-- The chain that a node is a use of, with its span, if the node is a member. -/
def use? (node : Node) : Option (MemberChain × Span) :=
  match node.kind with
  | .member _ _ => node.chain?.map fun chain => (chain, node.span)
  | _ => none

theorem use?_eq_some_iff : node.use? = some use ↔
      (∃ property isOptional, node.kind = .member property isOptional) ∧
        node.chain? = some use.1 ∧ node.span = use.2 := by
  obtain ⟨chain, span⟩ := use
  rw [use?]
  split
  · next property isOptional isMember =>
    rw [Option.map_eq_some_iff]
    constructor
    · rintro ⟨found, isChain, same⟩
      cases same
      exact ⟨⟨property, isOptional, isMember⟩, isChain, rfl⟩
    · rintro ⟨_, isChain, isSpan⟩
      exact ⟨chain, isChain, by rw [isSpan]⟩
  · next notMember =>
    simp only [reduceCtorEq, false_iff, not_and]
    rintro ⟨property, isOptional, isMember⟩
    exact absurd isMember (notMember property isOptional)

/-- A use of a chain is a member of an object. -/
theorem exists_object_of_use? (isUse : node.use? = some use) : ∃ property isOptional object others,
      node = mk (.member property isOptional) use.2 (object :: others) := by
  obtain ⟨⟨property, isOptional, isMember⟩, isChain, isSpan⟩ := use?_eq_some_iff.1 isUse
  obtain ⟨kind, span, children⟩ := node
  obtain rfl : kind = .member property isOptional := isMember
  rw [← isSpan, span_mk]
  cases children with
  | nil => simp [chain?] at isChain
  | cons object others => exact ⟨property, isOptional, object, others, rfl⟩

theorem own_of_member {property : String} {isOptional : Bool} {object : Node} {others : List Node}
    (nested : (mk (.member property isOptional) span (object :: others)).isNested = true) :
    (span.start ≤ object.span.start ∧ object.span.start < object.span.stop ∧
      object.span.stop < span.stop) ∧ ∀ part ∈ others, part.children = [] := by
  have inside : span.contains object.span = true :=
    contains_of_mem_children nested List.mem_cons_self
  have own := own_of_isNested nested
  simp only [areOwnPartsNested, Bool.and_eq_true, decide_eq_true_eq, List.all_eq_true,
    List.isEmpty_iff] at own
  exact ⟨⟨(Span.contains_iff.1 inside).1, own.1⟩, own.2⟩

/-- What stands in a use of a chain is smaller than the use. -/
theorem not_contains_of_use? (nested : node.isNested = true) (isUse : node.use? = some use)
    (isChild : child ∈ node.children) (isInner : inner ∈ child.nodes) :
    inner.span.contains use.2 = false := by
  obtain ⟨property, isOptional, object, others, rfl⟩ := exists_object_of_use? isUse
  obtain ⟨own, _⟩ := own_of_member nested
  have holdsInner := contains_of_mem_nodes (isNested_of_mem_children nested isChild) isInner
  rw [Span.contains_iff] at holdsInner
  apply Bool.eq_false_iff.2
  rw [Ne, Span.contains_iff]
  -- What stands in the object ends too early, and what stands behind it starts too late.
  rcases List.mem_cons.1 isChild with rfl | isOther
  · omega
  · have behind := (List.pairwise_cons.1 (ordered_children nested)).1 child isOther
    omega

/-- A use of a chain is not empty. -/
theorem start_lt_stop_of_use? (nested : node.isNested = true) (isUse : node.use? = some use) :
    use.2.start < use.2.stop := by
  obtain ⟨property, isOptional, object, others, rfl⟩ := exists_object_of_use? isUse
  obtain ⟨own, _⟩ := own_of_member nested
  omega

/-- The uses of chains in a tree, in order. -/
def uses (root : Node) : List (MemberChain × Span) :=
  root.nodes.filterMap use?

theorem mem_uses_iff :
    use ∈ root.uses ↔ ∃ node ∈ root.nodes, node.use? = some use :=
  List.mem_filterMap

theorem uses_mk (notReference : ∀ name, kind ≠ .reference name) : (mk kind span children).uses =
      (mk kind span children).use?.toList ++ children.flatMap uses := by
  rw [uses, nodes_mk notReference, List.filterMap_cons, List.filterMap_flatMap]
  cases (mk kind span children).use? <;> rfl

theorem uses_reference (name : String) : (mk (.reference name) span children).uses = [] := by
  rw [uses, nodes_reference]
  rfl

/-- A use of a chain that lies in the span of a node stands in the node. -/
theorem mem_uses_of_contains (nested : root.isNested = true) (isOuter : outer ∈ root.nodes)
    (member : use ∈ root.uses) (inside : outer.span.contains use.2 = true) : use ∈ outer.uses := by
  obtain ⟨inner, isInner, isUse⟩ := mem_uses_iff.1 member
  have innerNested := isNested_of_mem_nodes nested isInner
  have isSpan := (use?_eq_some_iff.1 isUse).2.2
  have notEmpty := start_lt_stop_of_use? innerNested isUse
  rw [← isSpan] at notEmpty
  rcases mem_nodes_or_mem_nodes nested isInner isOuter (by rw [isSpan]; exact inside)
      notEmpty with stands | holds
  · exact mem_uses_iff.2 ⟨inner, stands, isUse⟩
  · rcases mem_nodes_cases holds with rfl | ⟨child, isChild, inChild⟩
    · exact mem_uses_iff.2 ⟨outer, mem_nodes_self outer, isUse⟩
    · rw [not_contains_of_use? innerNested isUse isChild inChild] at inside
      cases inside

theorem contains_of_mem_uses (nested : node.isNested = true) (member : use ∈ node.uses) :
    node.span.contains use.2 = true := by
  obtain ⟨inner, isInner, isUse⟩ := mem_uses_iff.1 member
  rw [← (use?_eq_some_iff.1 isUse).2.2]
  exact contains_of_mem_nodes nested isInner

theorem start_lt_stop_of_mem_uses (nested : node.isNested = true) (member : use ∈ node.uses) :
    use.2.start < use.2.stop := by
  obtain ⟨inner, isInner, isUse⟩ := mem_uses_iff.1 member
  exact start_lt_stop_of_use? (isNested_of_mem_nodes nested isInner) isUse

theorem uses_eq_nil_of_children_eq_nil (childless : node.children = []) : node.uses = [] := by
  rw [uses, List.filterMap_eq_nil_iff]
  intro inner member
  rcases mem_nodes_cases member with rfl | ⟨child, isChild, _⟩
  · cases isUse : inner.use? with
    | none => rfl
    | some use =>
      obtain ⟨property, isOptional, object, others, rfl⟩ := exists_object_of_use? isUse
      cases childless
  · rw [childless] at isChild
    cases isChild

/-- The chain of a member is that of its object with one more step. -/
theorem exists_chain?_of_member {property : String} {isOptional : Bool} {object : Node}
    {others : List Node} {chain : MemberChain}
    (isChain : (mk (.member property isOptional) span (object :: others)).chain? = some chain) :
    ∃ shorter, object.chain? = some shorter ∧ chain = shorter.push property := by
  cases isOptional with
  | true => simp [chain?] at isChain
  | false =>
    rw [chain?] at isChain
    obtain ⟨shorter, isShorter, rfl⟩ := Option.map_eq_some_iff.1 isChain
    exact ⟨shorter, isShorter, rfl⟩

/-- The uses inside a chain are of chains that are no longer. -/
theorem length_le_of_mem_uses (nested : node.isNested = true) {chain : MemberChain}
    (isChain : node.chain? = some chain) (member : use ∈ node.uses) :
    use.1.path.length ≤ chain.path.length := by
  induction node using Node.induction generalizing chain with
  | step kind span children ih =>
    have own := own_of_isNested nested
    unfold chain? at isChain
    split at isChain
    · next same =>
      cases same
      have childless : (mk .thisExpression span children).children = [] := List.isEmpty_iff.1 own
      rw [uses_eq_nil_of_children_eq_nil childless] at member
      cases member
    · next same =>
      cases same
      rw [uses_reference] at member
      cases member
    · next property _ object others same =>
      cases same
      obtain ⟨shorter, isShorter, rfl⟩ := Option.map_eq_some_iff.1 isChain
      have longer : (shorter.push property).path.length = shorter.path.length + 1 := by
        rw [MemberChain.push, List.length_append]
        rfl
      rw [uses_mk (by simp), List.mem_append] at member
      rcases member with isSelf | isDeeper
      · have isUse := (use?_eq_some_iff.1 (Option.mem_toList.1 isSelf)).2.1
        rw [chain?, isShorter] at isUse
        exact Nat.le_of_eq (congrArg (·.path.length) (Option.some.inj isUse).symm)
      · obtain ⟨child, isChild, isInner⟩ := List.mem_flatMap.1 isDeeper
        rcases List.mem_cons.1 isChild with rfl | isOther
        · have shortened := ih child List.mem_cons_self
            (isNested_of_mem_children nested List.mem_cons_self) isShorter isInner
          omega
        · rw [uses_eq_nil_of_children_eq_nil ((own_of_member nested).2 child isOther)]
            at isInner
          cases isInner
    · cases isChain

/-- The uses inside a use of a chain are of shorter chains. -/
theorem length_lt_of_mem_uses_children (nested : node.isNested = true)
    (isUse : node.use? = some use) (isChild : child ∈ node.children) {inner : MemberChain × Span}
    (isInner : inner ∈ child.uses) : inner.1.path.length < use.1.path.length := by
  obtain ⟨_, isChain, _⟩ := use?_eq_some_iff.1 isUse
  obtain ⟨property, isOptional, object, others, rfl⟩ := exists_object_of_use? isUse
  obtain ⟨shorter, isShorter, isLonger⟩ := exists_chain?_of_member isChain
  rcases List.mem_cons.1 isChild with rfl | isOther
  · have bound := length_le_of_mem_uses
      (isNested_of_mem_children nested List.mem_cons_self) isShorter isInner
    rw [isLonger, MemberChain.push, List.length_append]
    exact Nat.lt_succ_of_le bound
  · rw [uses_eq_nil_of_children_eq_nil ((own_of_member nested).2 child isOther)] at isInner
    cases isInner

/-- Of two uses of chains of the same length, none lies in the span of the other. -/
theorem eq_of_contains_of_length_le (nested : root.isNested = true)
    {inner outer : MemberChain × Span} (isInner : inner ∈ root.uses)
    (isOuter : outer ∈ root.uses) (inside : outer.2.contains inner.2 = true)
    (notLonger : outer.1.path.length ≤ inner.1.path.length) : inner = outer := by
  obtain ⟨node, isNode, isUse⟩ := mem_uses_iff.1 isOuter
  have nodeNested := isNested_of_mem_nodes nested isNode
  rw [← (use?_eq_some_iff.1 isUse).2.2] at inside
  obtain ⟨innerNode, isInnerNode, isInnerUse⟩ :=
    mem_uses_iff.1 (mem_uses_of_contains nested isNode isInner inside)
  rcases mem_nodes_cases isInnerNode with rfl | ⟨child, isChild, inChild⟩
  · exact Option.some.inj (isInnerUse.symm.trans isUse)
  · have shorter := length_lt_of_mem_uses_children nodeNested isUse isChild
      (mem_uses_iff.2 ⟨innerNode, inChild, isInnerUse⟩)
    omega

/-- What stands before the statements of a body uses no chains. -/
theorem uses_eq_nil_of_directive (nested : node.isNested = true)
    (isDirective : node.kind = .directive ∨ node.kind = .hashbang) : node.uses = [] := by
  obtain ⟨kind, span, children⟩ := node
  have own := own_of_isNested nested
  rcases isDirective with isKind | isKind
  · obtain rfl : kind = .directive := isKind
    rw [uses_mk (by simp), List.append_eq_nil_iff, List.flatMap_eq_nil_iff]
    refine ⟨rfl, fun child isChild => uses_eq_nil_of_children_eq_nil ?_⟩
    exact List.isEmpty_iff.1 (List.all_eq_true.1 own child isChild)
  · obtain rfl : kind = .hashbang := isKind
    exact uses_eq_nil_of_children_eq_nil (List.isEmpty_iff.1 own)

/-- No two uses of chains have the same span. -/
theorem pairwise_span_ne_of_uses (nested : root.isNested = true) :
    root.uses.Pairwise fun first second => first.2 ≠ second.2 := by
  induction root using Node.induction with
  | step kind span children ih =>
    rcases kind.reference_cases with ⟨name, rfl⟩ | notReference
    · rw [uses_reference]
      exact List.Pairwise.nil
    rw [uses_mk notReference, List.pairwise_append]
    refine ⟨?_, ?_, ?_⟩
    · cases (mk kind span children).use? with
      | none => exact List.Pairwise.nil
      | some use => exact List.pairwise_singleton _ use
    · rw [List.pairwise_flatMap]
      constructor
      · intro child isChild
        exact ih child isChild (isNested_of_mem_children nested isChild)
      · apply (ordered_children nested).imp_of_mem
        intro first second isFirst isSecond apart use inFirst other inSecond
        have firstNested := isNested_of_mem_children nested isFirst
        have notEmpty := start_lt_stop_of_mem_uses firstNested inFirst
        have firstHolds := Span.contains_iff.1 (contains_of_mem_uses firstNested inFirst)
        have secondHolds := Span.contains_iff.1
          (contains_of_mem_uses (isNested_of_mem_children nested isSecond) inSecond)
        intro same
        rw [same] at firstHolds notEmpty
        omega
    · intro use isUse other inChildren
      obtain ⟨child, isChild, isOther⟩ := List.mem_flatMap.1 inChildren
      obtain ⟨node, isNode, isOtherUse⟩ := mem_uses_iff.1 isOther
      have smaller := not_contains_of_use? nested (Option.mem_toList.1 isUse) isChild isNode
      rw [(use?_eq_some_iff.1 isOtherUse).2.2] at smaller
      rintro same
      rw [same, Span.contains_refl] at smaller
      cases smaller

end Codemod.Node
