import Codemod.Proofs.Scope.Places
import Codemod.Proofs.Tree.Shape

/-!
# The walk over a tree

`Walk` says what a survey goes through at a node and at parts that follow one
another: the node notes what it declares and uses, it is entered, its parts are
walked, and its scope is open while those parts are walked that stand in it.
`walk_trace` says that the trace of a node is such a walk; whatever else is true
of a survey is proved by induction on the walk, which has five cases.
-/

namespace Codemod

open Trace

/-- A stretch of the walk over a tree. -/
inductive Stretch where
  /-- The node at a place. -/
  | node (place : Place)
  /-- Parts of a node, by the number of the first and by how many they are. -/
  | parts (place : Place) (isInside : Bool) (first count : Nat)

namespace Node

variable {root node : Node} {place : Place}

/-- A span is entered for the sake of a node: its own one or that of one of its parts. -/
def IsEnteredAt (root : Node) (place : Place) (span : Span) : Prop :=
  ∃ node, root.at? place = some node ∧ IsPlaceIn node.span (parts node.children) span

/-- What a survey goes through along a stretch. -/
inductive Walk (root : Node) : Stretch → Survey → Survey → Prop
  | nothing {place : Place} {isInside : Bool} {first : Nat} {survey : Survey} :
      Walk root (.parts place isInside first 0) survey survey
  | enter {place : Place} {isInside : Bool} {first count : Nat} {span : Span}
      {survey after : Survey} (isPlace : root.IsEnteredAt place span)
      (rest : Walk root (.parts place isInside first count) (survey.step (.enter span)) after) :
      Walk root (.parts place isInside first count) survey after
  | part {place : Place} {isInside : Bool} {first count : Nat} {node child : Node}
      {survey middle after : Survey} (reached : root.at? place = some node)
      (isChild : node.children[first]? = some child)
      (stands : node.holdsInScope first = isInside)
      (here : Walk root (.node (place ++ [first])) survey middle)
      (rest : Walk root (.parts place isInside (first + 1) count) middle after) :
      Walk root (.parts place isInside first (count + 1)) survey after
  | plain {place : Place} {node : Node} {survey after : Survey}
      (reached : root.at? place = some node) (noForm : node.kind.scopeForm? = none)
      (rest : Walk root (.parts place false 0 node.children.length)
        ((node.arrival (root.accessAt place)).foldl Survey.step survey) after) :
      Walk root (.node place) survey after
  | scope {place : Place} {node : Node} {form : ScopeForm} {opening : Opening}
      {survey before inside after : Survey} (reached : root.at? place = some node)
      (isForm : node.kind.scopeForm? = some form)
      (isOpening : node.opening? = some opening)
      (isBefore : before = (readAll (parts (node.children.take (form.start node.children)))).foldl
        Survey.step ((node.arrival (root.accessAt place)).foldl Survey.step survey))
      (head : Walk root (.parts place false 0 (form.start node.children))
        ((node.arrival (root.accessAt place)).foldl Survey.step survey) before)
      (within : Walk root
        (.parts place true (form.start node.children)
          (form.stop node.children - form.start node.children))
        (before.openScope opening) inside)
      (tail : Walk root
        (.parts place false (form.stop node.children)
          (node.children.length - form.stop node.children))
        (inside.step .closeScope) after) :
      Walk root (.node place) survey after

/-! ## Traces are walks -/

theorem foldl_inScope (survey : Survey) (opening : Opening) (inside : List Step) :
    (inScope opening inside).foldl Survey.step survey =
      (inside.foldl Survey.step (survey.openScope opening)).step .closeScope := by
  rw [inScope, List.foldl_append]
  rfl

/-- Parts strung together are walked one after the other. -/
theorem walk_strung (isInside : Bool) (first : Nat) {segment : List Node}
    {enters : Span → Prop} {uses : Nat → Access} {steps : List Step}
    (reached : root.at? place = some node)
    (strung : Strung enters uses first (parts segment) steps)
    (arePlaces : ∀ span, enters span → root.IsEnteredAt place span)
    (isSegment : ∀ index child, segment[index]? = some child →
      node.children[first + index]? = some child ∧ node.holdsInScope (first + index) = isInside)
    (each : ∀ index child, segment[index]? = some child → ∀ survey,
      Walk root (.node (place ++ [first + index])) survey
        ((child.trace (uses (first + index))).foldl Survey.step survey))
    (survey : Survey) :
    Walk root (.parts place isInside first segment.length) survey
      (steps.foldl Survey.step survey) := by
  generalize isParts : parts segment = all at strung
  induction strung generalizing segment survey with
  | nil =>
    cases segment with
    | nil => exact .nothing
    | cons child rest => cases isParts
  | enter isPlace _ ih =>
    exact .enter (arePlaces _ isPlace)
      (ih isSegment each (survey.step (.enter _)) isParts)
  | @part first part others steps _ ih =>
    cases segment with
    | nil => cases isParts
    | cons child rest =>
      obtain ⟨rfl, isRest⟩ := List.cons.inj isParts
      have own := isSegment 0 child rfl
      rw [List.foldl_append]
      refine .part reached own.1 own.2 (each 0 child rfl survey) ?_
      refine ih ?_ ?_ _ isRest
      · intro index other isOther
        have later := isSegment (index + 1) other isOther
        rwa [Nat.add_right_comm, Nat.add_assoc]
      · intro index other isOther
        have later := each (index + 1) other isOther
        rwa [Nat.add_right_comm, Nat.add_assoc]

theorem holdsInScope_of_none {index : Nat} (noForm : node.kind.scopeForm? = none) :
    node.holdsInScope index = false := by
  simp [holdsInScope, noForm]

theorem holdsInScope_of_some {form : ScopeForm} {index : Nat}
    (isForm : node.kind.scopeForm? = some form) :
    node.holdsInScope index = true ↔
      form.start node.children ≤ index ∧ index < form.stop node.children := by
  simp [holdsInScope, isForm]

theorem isEnteredAt_of_isPlaceIn (reached : root.at? place = some node) :
    ∀ span, IsPlaceIn node.span (parts node.children) span → root.IsEnteredAt place span :=
  fun _ isPlace => ⟨node, reached, isPlace⟩

/-- The walk over the parts of a node from one number up to another. -/
theorem walk_segment (isInside : Bool) (first last : Nat) {uses : Nat → Access}
    {steps : List Step} (reached : root.at? place = some node)
    (strung : Strung (IsPlaceIn node.span (parts node.children)) uses first
      (parts ((node.children.take last).drop first)) steps)
    (inside : last ≤ node.children.length)
    (stands : ∀ index, first ≤ index → index < last → node.holdsInScope index = isInside)
    (each : ∀ index child, node.children[index]? = some child → ∀ survey,
      Walk root (.node (place ++ [index])) survey
        ((child.trace (uses index)).foldl Survey.step survey))
    (survey : Survey) :
    Walk root (.parts place isInside first (last - first)) survey
      (steps.foldl Survey.step survey) := by
  have isSegment : ∀ {index child}, ((node.children.take last).drop first)[index]? = some child →
      first + index < last ∧ node.children[first + index]? = some child := by
    intro index child isChild
    rw [List.getElem?_drop, List.getElem?_take] at isChild
    split at isChild
    · next smaller => exact ⟨smaller, isChild⟩
    · cases isChild
  have walk := walk_strung isInside first reached strung (isEnteredAt_of_isPlaceIn reached)
    (fun index child isChild => ⟨(isSegment isChild).2,
      stands _ (Nat.le_add_right _ _) (isSegment isChild).1⟩)
    (fun index child isChild => each _ child (isSegment isChild).2) survey
  rwa [List.length_drop, List.length_take_of_le inside] at walk

/-- The trace of a node is a walk. -/
theorem walk_trace (shaped : root.isWellShaped = true) {node : Node} {place : Place}
    (reached : root.at? place = some node) (survey : Survey) :
    Walk root (.node place) survey
      ((node.trace (root.accessAt place)).foldl Survey.step survey) := by
  induction node using Node.induction generalizing place survey with
  | step kind span children ih =>
    have each : ∀ index child, children[index]? = some child → ∀ survey,
        Walk root (.node (place ++ [index])) survey
          ((child.trace (kind.passes (root.accessAt place) index)).foldl Survey.step survey) := by
      intro index child isChild survey
      have walk := ih child (List.mem_of_getElem? isChild)
        (at?_part reached isChild) survey
      rwa [accessAt, accessFrom_part _ reached isChild] at walk
    cases isForm : kind.scopeForm? with
    | none =>
      rcases kind.reference_cases with ⟨name, rfl⟩ | notReference
      · obtain rfl := children_of_reference (isWellShaped_at? shaped reached)
        exact .plain reached rfl .nothing
      · obtain ⟨rest, trace, strung⟩ := exists_strung notReference isForm span children _
        rw [trace, List.foldl_append]
        refine .plain reached isForm ?_
        refine walk_segment false 0 children.length reached ?_ (Nat.le_refl _)
          (fun _ _ _ => holdsInScope_of_none isForm) each _
        simpa using strung
    | some form =>
      obtain ⟨opening, inside, layout⟩ := exists_layout isForm span children (root.accessAt place)
      have trace := layout.trace
      have strung := layout.strung
      rw [headParts_eq, tailParts_eq] at trace
      rw [scopeParts_eq] at strung
      have inScope_iff : ∀ index, (mk kind span children).holdsInScope index = true ↔
          form.start children ≤ index ∧ index < form.stop children :=
        fun index => holdsInScope_of_some isForm
      have outside : ∀ index, ¬ (form.start children ≤ index ∧ index < form.stop children) →
          (mk kind span children).holdsInScope index = false := by
        intro index isOutside
        rwa [← Bool.not_eq_true, inScope_iff]
      simp only [Kind.passes_of_scopeForm? isForm] at each
      have tailStrung : Strung (IsPlaceIn span (parts children)) (fun _ => .read)
          (form.stop children) (parts ((children.take children.length).drop (form.stop children)))
          (readAll (parts (children.drop (form.stop children)))) := by
        rw [List.take_length]
        exact strung_readAll (fun _ => rfl) _ _
      rw [trace, List.foldl_append, List.foldl_append, List.foldl_append, foldl_inScope]
      refine .scope reached isForm layout.isOpening rfl
        (walk_segment false 0 (form.start children) reached (strung_readAll (fun _ => rfl) _ _) ?_
          ?_ each _)
        (walk_segment true _ (form.stop children) reached strung
          (form.stop_le_length children) ?_ each _)
        (walk_segment false _ children.length reached tailStrung (Nat.le_refl _) ?_ each _)
      · exact Nat.le_trans (form.start_le_stop children) (form.stop_le_length children)
      · exact fun index _ before => outside index fun isInside =>
          Nat.not_lt_of_le isInside.1 before
      · exact fun index notBefore before => (inScope_iff index).2 ⟨notBefore, before⟩
      · exact fun index notBefore _ => outside index fun isInside =>
          Nat.not_lt_of_le notBefore isInside.2

end Node

end Codemod
