import Codemod.Proofs.Scope.Accesses
import Codemod.Proofs.Scope.Coverage
import Codemod.Proofs.Scope.Enclosure
import Codemod.Proofs.Scope.Formation
import Codemod.Proofs.Tree.Legibility

/-!
# The names and the functions of a tree in its table

The references of a table are the names that are used in the tree, each in the
innermost scope at its place (`exists_place_of_reference`), and no name is listed
twice (`pairwise_span_ne_of_references`).  The functions of a table are known by
the places of their scopes (`exists_place_of_function`), so that a function is the
first one with its span if no function around it has the same span
(`find?_functions`).
-/

namespace Codemod

open Trace ScopeTable

/-! ## References -/

namespace ScopeTable

variable {root node : Node} {place outer : Place} {id : ScopeId} {reference : Reference}
  {source : List Char}

section

variable (isText : root.kind = .program) (shaped : root.isWellShaped = true)
include isText shaped

/-- A reference is a name of the tree, listed in the innermost scope at its place. -/
theorem exists_place_of_reference (isReference : reference ∈ (ofProgram root).references) :
    ∃ place outer, root.at? place = some (.mk (.reference reference.name) reference.span []) ∧
      root.openings[reference.scope]? = some outer ∧ root.innermost? place = some outer := by
  obtain ⟨place, reached, _, outer, isInnermost⟩ :=
    (enumerates_references isText shaped).mem_iff.1 isReference
  exact ⟨place, outer, reached, isInnermost⟩

/-- A name of the tree is a reference in the innermost scope at its place. -/
theorem exists_reference_of_place {name : String} {span : Span} {children : List Node}
    (reached : root.at? place = some (.mk (.reference name) span children))
    (isPlace : root.openings[id]? = some outer) (isInnermost : root.innermost? place = some outer) :
    ∃ reference ∈ (ofProgram root).references,
      reference.name = name ∧ reference.span = span ∧ reference.scope = id := by
  obtain rfl := Node.children_of_reference (Node.isWellShaped_at? shaped reached)
  exact ⟨⟨name, span, id, root.accessAt place⟩, (enumerates_references isText shaped).mem_iff.2
    ⟨place, reached, rfl, outer, isPlace, isInnermost⟩, rfl, rfl, rfl⟩

end

/-- A reference lies in a scope exactly if the scope is open at its place. -/
theorem isWithin_iff_mem_scopesAt (shaped : root.isWellShaped = true) {around : Place}
    {other : ScopeId} (isPlace : root.openings[id]? = some outer)
    (isInnermost : root.innermost? place = some outer)
    (isAround : root.openings[other]? = some around) :
    (ofProgram root).isWithin id other = true ↔ around ∈ root.scopesAt place := by
  rw [isWithin_iff_place shaped isPlace isAround, Node.scopesAt_of_innermost? isInnermost]

/-- Names that take up the same room stand at one place. -/
theorem place_eq_of_reference_span (nested : root.isNested = true)
    (legible : root.isLegible source = true) {name other : String} {span : Span} {inner : Place}
    (reached : root.at? place = some (.mk (.reference name) span []))
    (isOther : root.at? inner = some (.mk (.reference other) span [])) : place = inner :=
  Node.place_eq_of_span_eq nested reached isOther rfl rfl rfl
    (Node.reference_of_isLegible (Node.isLegible_at? legible isOther)).1

/-- No name is listed twice among the references. -/
theorem pairwise_span_ne_of_references (isText : root.kind = .program)
    (shaped : root.isWellShaped = true) (nested : root.isNested = true)
    (legible : root.isLegible source = true) :
    (ofProgram root).references.Pairwise fun first second => first.span ≠ second.span := by
  refine List.pairwise_map.1 (((enumerates_references isText shaped).map Reference.span).nodup ?_)
  rintro place inner span ⟨first, ⟨reached, _⟩, rfl⟩ ⟨second, ⟨isOther, _⟩, same⟩
  rw [same] at isOther
  exact place_eq_of_reference_span nested legible reached isOther

/-! ## Functions -/

/-- The shapes of the functions whose scope has a number. -/
def shapesOf (table : ScopeTable) (id : ScopeId) : List FunctionShape :=
  (table.functions.filter fun function => function.scope == id).map
    FunctionRecord.toFunctionShape

theorem shapesOf_openScope (survey : Survey) (opening : Opening) (id : ScopeId) :
    (survey.openScope opening).table.shapesOf id =
      survey.table.shapesOf id ++ if id = survey.table.scopes.length then
        (Survey.functionParts opening).2.toList else [] := by
  rw [shapesOf, shapesOf, Survey.openScope_table, push, List.filter_append, List.map_append]
  congr 1
  rw [Survey.openedFunctions]
  cases (Survey.functionParts opening).2 with
  | none => simp
  | some shape =>
    by_cases isNew : id = survey.table.scopes.length
    · simp [isNew]
    · simp [isNew, Ne.symm isNew]

/-- The view of the functions. -/
def View.shapes : View FunctionShape where
  read := shapesOf
  gives := fun _ => []
  born := fun opening => (Survey.functionParts opening).2.toList
  read_empty := fun _ => rfl
  gives_enter := fun _ => rfl
  read_step := fun plain _ id => by
    rw [shapesOf, Survey.functions_step_of_plain plain, List.filterMap_nil, List.append_nil]
    exact List.Perm.refl _
  read_openScope := fun survey opening id => List.Perm.of_eq (shapesOf_openScope survey opening id)

end ScopeTable

namespace Node

variable {root node : Node} {shape : FunctionShape}

/-- The node at a place is a function with a shape. -/
def shapedAt (root : Node) (place : Place) (_ : Unit) (reach : Option Reach)
    (shape : FunctionShape) : Prop :=
  reach = none ∧ ∃ node, root.at? place = some node ∧ node.shape? = some shape

theorem span_of_shape? (isShape : node.shape? = some shape) : shape.span = node.span := by
  obtain ⟨body, _, rfl⟩ := Option.map_eq_some_iff.1 isShape
  split <;> rfl

theorem functionParts_opening? (node : Node) :
    node.opening?.toList.flatMap (fun opening => (Survey.functionParts opening).2.toList) =
      node.shape?.toList := by
  unfold opening?
  split
  · rfl
  · rfl
  · simp [Survey.functionParts]
  · simp [Survey.functionParts]
  · next kind span children _ _ notFunction notArrow =>
    have isOther : kind.isFunction = false := by
      unfold Kind.isFunction
      split <;> simp_all
    rw [shape?_eq_none span children isOther]
    cases kind.scopeForm? <;> rfl

/-- What a node adds to the functions is its own shape. -/
theorem ofNode_shapes (node : Node) (access : Access) :
    View.shapes.ofNode node access = node.shape?.toList.map fun shape => (none, shape) := by
  have noNote : (node.notes access).flatMap View.shapes.gives = [] :=
    List.flatMap_eq_nil_iff.2 fun _ _ => rfl
  rw [View.ofNode, noNote, List.map_nil, List.nil_append, ← functionParts_opening?]
  rfl

theorem isKnown_shapes (root : Node) : View.shapes.IsKnown root root.shapedAt where
  isNode := fun ⟨_, node, reached, _⟩ => ⟨node, reached⟩
  enumerates := by
    intro place node reached
    rw [ofNode_shapes]
    cases isShape : node.shape? with
    | none =>
      refine .nil ?_
      rintro _ entry ⟨_, other, isOther, hasShape⟩
      rw [reached, Option.some.injEq] at isOther
      subst isOther
      rw [isShape] at hasShape
      cases hasShape
    | some shape =>
      refine .singleton () fun _ entry => ?_
      constructor
      · rintro ⟨isNone, other, isOther, hasShape⟩
        rw [reached, Option.some.injEq] at isOther
        subst isOther
        rw [isShape, Option.some.injEq] at hasShape
        exact ⟨rfl, Prod.ext isNone hasShape.symm⟩
      · rintro ⟨_, rfl⟩
        exact ⟨rfl, node, reached, isShape⟩

theorem holdsInScope_of_isFunction (isFunction : node.kind.isFunction = true) {index : Nat}
    {child : Node} (isChild : node.children[index]? = some child) :
    node.holdsInScope index = true := by
  have isForm : node.kind.scopeForm? = some .whole := by
    cases isKind : node.kind with
    | function form => rfl
    | arrow isAsync hasExpressionBody => rfl
    | _ =>
      rw [isKind] at isFunction
      cases isFunction
  simp [holdsInScope, isForm, ScopeForm.start, ScopeForm.stop,
    (List.getElem?_eq_some_iff.1 isChild).1]

/-- All that stands below a function stands in its scope. -/
theorem mem_scopesAt_of_isFunction {place below : Place} {inner : Node}
    (reached : root.at? place = some node) (isFunction : node.kind.isFunction = true)
    (isInner : root.at? below = some inner) (isBelow : place <+: below) (isOther : place ≠ below) :
    place ∈ root.scopesAt below := by
  obtain ⟨rest, rfl⟩ := isBelow
  cases rest with
  | nil => exact absurd (List.append_nil place).symm isOther
  | cons index rest =>
    rw [at?_append, reached, Option.bind_some] at isInner
    obtain ⟨kind, span, children⟩ := node
    obtain ⟨child, isChild, _⟩ := at?_cons_eq_some_iff.1 isInner
    exact mem_scopesAt_of_holdsInScope reached isChild
      (holdsInScope_of_isFunction isFunction isChild)
      ((List.prefix_append_right_inj place).2 (List.cons_prefix_cons.2 ⟨rfl, List.nil_prefix⟩))

end Node

namespace ScopeTable

variable {root node : Node} {place outer : Place} {id : ScopeId} {function : FunctionRecord}
  {shape : FunctionShape}

section

variable (isText : root.kind = .program) (shaped : root.isWellShaped = true)
include isText shaped

theorem mem_shapesOf_iff (isPlace : root.openings[id]? = some place) :
    shape ∈ (ofProgram root).shapesOf id ↔
      ∃ node, root.at? place = some node ∧ node.shape? = some shape := by
  refine (View.enumerates_ofProgram root.isKnown_shapes isText shaped isPlace).mem_iff.trans ?_
  constructor
  · rintro ⟨⟨inner, _⟩, reach, ⟨rfl, isNode⟩, lands⟩
    obtain rfl := beq_iff_eq.1 lands
    exact isNode
  · intro isNode
    exact ⟨(place, ()), none, ⟨rfl, isNode⟩, beq_self_eq_true place⟩

/-- A function of a table is one of the tree, at the place of its scope. -/
theorem exists_place_of_function (isFunction : function ∈ (ofProgram root).functions) :
    ∃ place node, root.openings[function.scope]? = some place ∧ root.at? place = some node ∧
      node.shape? = some function.toFunctionShape := by
  obtain ⟨scope, found, _⟩ := (isTableOf_ofProgram isText).functions function isFunction
  have inside := lt_length_of_get? found
  rw [length_scopes_ofProgram shaped] at inside
  have isPlace := List.getElem?_eq_getElem inside
  have isListed : function.toFunctionShape ∈ (ofProgram root).shapesOf function.scope :=
    List.mem_map_of_mem (List.mem_filter.2 ⟨isFunction, beq_self_eq_true _⟩)
  obtain ⟨node, reached, isShape⟩ := (mem_shapesOf_iff isText shaped isPlace).1 isListed
  exact ⟨_, node, isPlace, reached, isShape⟩

/-- A function of the tree is in the table, with the scope of its place. -/
theorem exists_function_of_place (reached : root.at? place = some node)
    (isShape : node.shape? = some shape) :
    ∃ function ∈ (ofProgram root).functions, function.toFunctionShape = shape ∧
      root.openings[function.scope]? = some place := by
  have isForm : node.kind.scopeForm?.isSome = true := by
    have isFunction := Node.isFunction_of_shape? isShape
    obtain ⟨kind, span, children⟩ := node
    cases kind with
    | function form => rfl
    | arrow isAsync hasExpressionBody => rfl
    | _ => cases isFunction
  obtain ⟨id, isPlace⟩ := List.getElem?_of_mem (Node.mem_openings.2 ⟨node, reached, isForm⟩)
  have isListed := (mem_shapesOf_iff isText shaped isPlace).2 ⟨node, reached, isShape⟩
  obtain ⟨function, isKept, isSame⟩ := List.mem_map.1 isListed
  obtain ⟨isFunction, isHere⟩ := List.mem_filter.1 isKept
  obtain rfl : function.scope = id := beq_iff_eq.1 isHere
  exact ⟨function, isFunction, isSame, isPlace⟩

end

/-- What stands below a function is listed in its scope or in a scope within. -/
theorem isWithin_iff_isPrefix (shaped : root.isWellShaped = true) {inner : Node} {below : Place}
    {other : ScopeId} (reached : root.at? place = some node)
    (isFunction : node.kind.isFunction = true) (isPlace : root.openings[id]? = some place)
    (isInner : root.at? below = some inner) (isElsewhere : place ≠ below)
    (isInnermost : root.innermost? below = some outer)
    (isOuter : root.openings[other]? = some outer) :
    (ofProgram root).isWithin other id = true ↔ place <+: below := by
  rw [isWithin_iff_mem_scopesAt shaped isOuter isInnermost isPlace]
  exact ⟨Node.isPrefix_of_mem_scopesAt, fun isBelow =>
    Node.mem_scopesAt_of_isFunction reached isFunction isInner isBelow isElsewhere⟩

/--
A function that takes up room is the first one in the table that has its span, if
none of the nodes above it is a function.
-/
theorem find?_functions (isText : root.kind = .program) (shaped : root.isWellShaped = true)
    (nested : root.isNested = true) (reached : root.at? place = some node)
    (isShape : node.shape? = some shape) (notEmpty : node.span.start < node.span.stop)
    (isOutermost : ∀ above around, above <+: place → above ≠ place →
      root.at? above = some around → around.shape? = none) :
    ∃ function, ((ofProgram root).functions.find? fun function =>
        function.span == node.span) = some function ∧
      root.openings[function.scope]? = some place := by
  obtain ⟨own, isOwn, rfl, isPlace⟩ := exists_function_of_place isText shaped reached isShape
  have ownSpan := Node.span_of_shape? isShape
  obtain ⟨first, isFirst⟩ : ∃ first, ((ofProgram root).functions.find? fun function =>
      function.span == node.span) = some first := by
    rw [← Option.isSome_iff_exists, List.find?_isSome]
    exact ⟨own, isOwn, beq_iff_eq.2 ownSpan⟩
  refine ⟨first, isFirst, ?_⟩
  obtain ⟨isSpan, before, after, isSplit, noneBefore⟩ := List.find?_eq_some_iff_append.1 isFirst
  have isListed : first ∈ (ofProgram root).functions := List.mem_of_find?_eq_some isFirst
  have notLater : first.scope ≤ own.scope := by
    have increasing := (isTableOf_ofProgram isText).increasing
    rw [isSplit] at isOwn increasing
    rcases List.mem_append.1 isOwn with isBefore | isBehind
    · exact absurd (beq_iff_eq.2 ownSpan) (by simpa using noneBefore own isBefore)
    · rcases List.mem_cons.1 isBehind with rfl | isAfter
      · exact Nat.le_refl _
      · exact Nat.le_of_lt
          (List.rel_of_pairwise_cons (List.pairwise_append.1 increasing).2.1 isAfter)
  obtain ⟨inner, other, isInner, isOther, otherShape⟩ :=
    exists_place_of_function isText shaped isListed
  have otherSpan : other.span = node.span :=
    (Node.span_of_shape? otherShape).symm.trans (beq_iff_eq.1 isSpan)
  by_cases isSame : inner = place
  · exact isSame ▸ isInner
  -- The first function is neither above nor below the other one, nor apart from it.
  rcases Node.isPrefix_or_isApart nested isOther reached with isAbove | isBelow | apart
  · rw [isOutermost inner other isAbove isSame isOther] at otherShape
    cases otherShape
  · have isOpen := Node.mem_scopesAt_of_isFunction reached (Node.isFunction_of_shape? isShape)
      isOther isBelow (Ne.symm isSame)
    have isWithin := (isWithin_iff_place shaped isInner isPlace).2 (List.mem_cons_of_mem _ isOpen)
    have notBefore := ((wellFormed_ofProgram root).le_of_mem_ancestors (isWithin_iff.1 isWithin)).1
    rw [Nat.le_antisymm notLater notBefore]
    exact isPlace
  · rw [otherSpan] at apart
    exact absurd apart (Span.not_isApart_of_contains notEmpty (Span.contains_refl _)
      (Span.contains_refl _))

end ScopeTable

end Codemod
