import Codemod.Pipeline
import Codemod.Proofs.Arrow.Conversion
import Codemod.Proofs.Edit.Arrangement
import Codemod.Proofs.Tree.Extent

/-!
# New arrow functions as a rewriting of the tree

The conversion of a function is planned as up to seven small edits, and the
edits of all functions are carried out together.  This module says what they
come to by recursion on the tree: `rewriting` gives the text of a node from the
texts of its parts, so that what a function inside another one becomes does not
depend on the edits around it.

Edits are lost in one place only.  If a function's sole parameter can stand
without parentheses, the whole list of parameters is replaced by its name, and
with it what was planned for its decorators (`erased`).
-/

namespace Codemod

namespace Node

/-- Whether a function stands at the end of a node. -/
def endsInFunction : Node → Bool :=
  fold fun kind span children =>
    (match kind with
      | .function _ => true
      | _ => false) ||
      children.any fun child => child.1.span.stop == span.stop && child.2

theorem endsInFunction_mk {kind : Kind} {span : Span} {children : List Node} :
    (mk kind span children).endsInFunction = false ↔ (∀ form, kind ≠ .function form) ∧
        ∀ child ∈ children, child.span.stop = span.stop → child.endsInFunction = false := by
  simp only [endsInFunction, fold_mk, Bool.or_eq_false_iff, List.any_map,
    Function.comp_def, List.any_eq_false, Bool.and_eq_true, beq_iff_eq, not_and,
    Bool.not_eq_true]
  refine and_congr ?_ Iff.rfl
  split <;> simp_all

end Node

namespace Arrow

open Edit

/-! ## Rewriting along the tree -/

/-- The parts of a node that becomes an arrow where it stands. -/
def converted? (node : Node) (slot : Slot) : Option Parts :=
  (parts? node.kind node.children).filter fun _ => (blocker? slot node.survey).isNone

/-- Where the type parameters or else the parameters start. -/
def Parts.headEnd (parts : Parts) : Nat :=
  (parts.typeParameters.getD parts.parameters).span.start

/-- Where the return type or else the parameters end. -/
def Parts.tailStart (parts : Parts) : Nat :=
  (parts.returnType.getD parts.parameters).span.stop

/-- What becomes of a node. -/
structure Rewriting where
  /-- The new text of the node where it stands. -/
  text : Slot → List Char
  /-- The new text of the value that a body or a statement returns. -/
  value : List Char

/-- What stands before the arrow, if the parts of the function have new texts. -/
def headText (program : Program) (style : Style) (own : Parts)
    (parts : List (Node × List Char)) : List Char :=
  match bareParameter? style own with
  | some name => name.toList
  | none =>
    Text.fill program.source own.headEnd own.tailStart
      ((parts.filter fun part => part.1.kind != .functionBody).map fun part =>
        (part.1.span, part.2))

/-- What stands behind the arrow, if the body and the value it returns have new texts. -/
def bodyText (program : Program) (body : Node) (text value : List Char) : List Char :=
  match returnedValue? program.comments body with
  | none => text
  | some returned =>
    if needsParentheses program.source returned then '(' :: value ++ [')'] else value

/-- The arrow that a function becomes, if its parts have new texts. -/
def conversionText (program : Program) (style : Style) (kind : Kind) (slot : Slot) (own : Parts)
    (parts : List (Node × List Char)) (value : List Char) : List Char :=
  let body := (parts.filter fun part => part.1.kind == .functionBody).flatMap (·.2)
  (if slot.isBare then [] else ['(']) ++
    (if isAsync kind then "async ".toList else []) ++
    headText program style own parts ++ " => ".toList ++
    bodyText program own.body body value ++ (if slot.isBare then [] else [')'])

/--
What becomes of a node: an arrow of its rewritten parts if it is converted, and
otherwise its own text with its parts rewritten.
-/
def rewriteNode (program : Program) (style : Style) (kind : Kind) (span : Span)
    (children : List (Node × Rewriting)) : Rewriting :=
  let nodes := children.map (·.1)
  { text := fun slot =>
      let parts := children.zipIdx.map fun part =>
        (part.1.1, part.1.2.text (childSlot kind nodes slot part.2))
      match converted? (.mk kind span nodes) slot with
      | some own =>
        conversionText program style kind slot own parts
          ((children.filter fun child => child.1.kind == .functionBody).flatMap
            (·.2.value))
      | none =>
        Text.fill program.source span.start span.stop
          (parts.map fun part => (part.1.span, part.2))
    value :=
      if kind == .returnStatement then
        children.flatMap fun child => child.2.text ⟨true, false⟩
      else children.flatMap (·.2.value) }

/-- What becomes of a tree. -/
def rewriting (program : Program) (style : Style) : Node → Rewriting :=
  Node.fold (rewriteNode program style)

/-- Whether the parameters of a node that is converted become a single name. -/
def isBareArrow (style : Style) (node : Node) (slot : Slot) : Bool :=
  ((converted? node slot).bind (bareParameter? style)).isSome

/--
The edits that are planned inside lists of parameters that become a single
name.
-/
def erased (program : Program) (style : Style) : Node → Slot → List Edit :=
  Node.fold fun kind span children slot =>
    let nodes := children.map (·.1)
    children.zipIdx.flatMap fun part =>
      let place := childSlot kind nodes slot part.2
      if isBareArrow style (.mk kind span nodes) slot && part.1.1.kind == .parameters then
        (planFrom program style part.1.1 place).edits
      else part.1.2 place

section Equations

variable (program : Program) (style : Style) (kind : Kind) (span : Span)
  (children : List Node) (slot : Slot)

/-- The parts of a node with their new texts. -/
def newParts : List (Node × List Char) :=
  children.zipIdx.map fun part =>
    (part.1, (rewriting program style part.1).text (childSlot kind children slot part.2))

theorem rewriting_mk : rewriting program style (.mk kind span children) =
      rewriteNode program style kind span
        (children.map fun child => (child, rewriting program style child)) :=
  Node.fold_mk _ kind span children

theorem text_rewriting_mk : (rewriting program style (.mk kind span children)).text slot =
      match converted? (.mk kind span children) slot with
      | some own =>
        conversionText program style kind slot own (newParts program style kind children slot)
          ((children.filter fun child => child.kind == .functionBody).flatMap fun child =>
            (rewriting program style child).value)
      | none =>
        Text.fill program.source span.start span.stop
          ((newParts program style kind children slot).map fun part =>
            (part.1.span, part.2)) := by
  rw [rewriting_mk, rewriteNode]
  simp only [newParts, List.map_map, Function.comp_def, List.map_id', List.zipIdx_map,
    List.filter_map, List.flatMap_map]
  rfl

theorem value_rewriting_mk : (rewriting program style (.mk kind span children)).value =
      if kind == .returnStatement then
        children.flatMap fun child => (rewriting program style child).text ⟨true, false⟩
      else children.flatMap fun child => (rewriting program style child).value := by
  rw [rewriting_mk, rewriteNode]
  simp only [List.flatMap_map]

theorem erased_mk : erased program style (.mk kind span children) slot =
      children.zipIdx.flatMap fun part =>
        if isBareArrow style (.mk kind span children) slot && part.1.kind == .parameters then
          (planFrom program style part.1 (childSlot kind children slot part.2)).edits
        else erased program style part.1 (childSlot kind children slot part.2) := by
  rw [erased, Node.fold_mk]
  simp only [List.map_map, Function.comp_def, List.map_id', List.zipIdx_map, List.flatMap_map]
  rfl

/-- The edits of a node itself. -/
def ownEdits (program : Program) (style : Style) (node : Node) (slot : Slot) : List Edit :=
  match converted? node slot with
  | some own => conversion program style node.kind node.span slot own
  | none => []

theorem edits_consider (node : Node) :
    (consider program style node slot).edits = ownEdits program style node slot := by
  rw [consider, ownEdits, converted?]
  cases parts? node.kind node.children with
  | none => rfl
  | some parts => cases blocker? slot node.survey <;> rfl

theorem edits_planFrom_mk : (planFrom program style (.mk kind span children) slot).edits =
      ownEdits program style (.mk kind span children) slot ++
      children.zipIdx.flatMap fun part =>
        (planFrom program style part.1 (childSlot kind children slot part.2)).edits := by
  rw [planFrom_mk, Plan.edits_append, Plan.edits_concat, List.flatMap_map, edits_consider]

end Equations

/-! ## The layout of functions -/

/-- The kinds of the parts of a function that may become an arrow, in order. -/
def layouts : List (List Kind) :=
  [[.parameters, .functionBody],
    [.typeParameters, .parameters, .functionBody],
    [.parameters, .typeAscription, .functionBody],
    [.typeParameters, .parameters, .typeAscription, .functionBody]]

/--
Whether the parts of a function stand as they are written: its head, its body up
to the end, no part with a function at its end, and each parameter behind a
parenthesis, with nothing but decorators before its pattern.
-/
def isFunctionLaidOut (kind : Kind) (span : Span) (children : List Node) : Bool :=
  match parts? kind children with
  | none => true
  | some parts =>
    layouts.contains (children.map Node.kind) && parts.body.span.stop == span.stop &&
      (children.all fun child => !child.endsInFunction) &&
      parts.parameters.children.all fun parameter =>
        parts.parameters.span.start < parameter.span.start &&
          parameter.children.dropLast.all fun part => part.kind == .decorator

/-- Whether the functions of a tree stand as they are written. -/
def isLaidOut : Node → Bool :=
  Node.fold fun kind span children =>
    isFunctionLaidOut kind span (children.map (·.1)) && children.all (·.2)

theorem isLaidOut_mk {kind : Kind} {span : Span} {children : List Node} :
    isLaidOut (.mk kind span children) = true ↔ isFunctionLaidOut kind span children = true ∧
        ∀ child ∈ children, isLaidOut child = true := by
  simp [isLaidOut, Node.fold_mk, Function.comp_def]

theorem isLaidOut_of_mem_children {node child : Node} (laidOut : isLaidOut node = true)
    (isChild : child ∈ node.children) : isLaidOut child = true := by
  rcases node with ⟨kind, span, children⟩
  exact (isLaidOut_mk.1 laidOut).2 child isChild

variable {kind : Kind} {span : Span} {children : List Node} {parts : Parts}

/-- Where the parts of a function come from. -/
structure IsPartsOf (kind : Kind) (children : List Node) (parts : Parts) : Prop where
  isFunction : ∃ form, kind = .function form
  typeParameters : parts.typeParameters =
    children.find? fun child => child.kind == .typeParameters
  parameters : some parts.parameters = children.find? fun child => child.kind == .parameters
  returnType : parts.returnType = children.find? fun child => child.kind == .typeAscription
  body : some parts.body = children.find? fun child => child.kind == .functionBody

theorem isPartsOf_of_parts? (isParts : parts? kind children = some parts) :
    IsPartsOf kind children parts := by
  unfold parts? at isParts
  split at isParts
  · simp only [Option.bind_eq_bind, Option.bind_eq_some_iff] at isParts
    rcases isParts with ⟨parameters, isParameters, body, isBody, rest⟩
    split at rest
    · cases rest
    · cases rest
      exact ⟨⟨_, rfl⟩, rfl, isParameters.symm, rfl, isBody.symm⟩
  · cases isParts

/-- The parts of a function that is laid out are all its children. -/
theorem IsPartsOf.children_eq (isParts : IsPartsOf kind children parts)
    (layout : layouts.contains (children.map Node.kind) = true) :
    children = parts.typeParameters.toList ++ [parts.parameters] ++
      parts.returnType.toList ++ [parts.body] := by
  rcases parts with ⟨typeParameters, parameters, returnType, body⟩
  rcases isParts with ⟨_, rfl, isParameters, rfl, isBody⟩
  rw [List.contains_iff_mem] at layout
  simp only [layouts, List.mem_cons, List.not_mem_nil, or_false] at layout
  rcases layout with kinds | kinds | kinds | kinds
  all_goals
    simp only [List.map_eq_cons_iff, List.map_eq_nil_iff] at kinds
  · rcases kinds with ⟨first, _, rfl, isFirst, second, _, rfl, isSecond, rfl⟩
    simp_all
  · rcases kinds with ⟨first, _, rfl, isFirst, second, _, rfl, isSecond, third, _, rfl,
      isThird, rfl⟩
    simp_all
  · rcases kinds with ⟨first, _, rfl, isFirst, second, _, rfl, isSecond, third, _, rfl,
      isThird, rfl⟩
    simp_all
  · rcases kinds with ⟨first, _, rfl, isFirst, second, _, rfl, isSecond, third, _, rfl,
      isThird, fourth, _, rfl, isFourth, rfl⟩
    simp_all

theorem isFunctionLaidOut_iff (isParts : parts? kind children = some parts) :
    isFunctionLaidOut kind span children = true ↔
      ((layouts.contains (children.map Node.kind) = true ∧ parts.body.span.stop = span.stop) ∧
          ∀ child ∈ children, child.endsInFunction = false) ∧
        ∀ parameter ∈ parts.parameters.children,
          parts.parameters.span.start < parameter.span.start ∧
            ∀ part ∈ parameter.children.dropLast, part.kind = .decorator := by
  simp only [isFunctionLaidOut, isParts, Bool.and_eq_true, beq_iff_eq, List.all_eq_true,
    Bool.not_eq_true', decide_eq_true_eq]

/-- What stands before the body of a function. -/
def Parts.front (parts : Parts) : List Node :=
  parts.typeParameters.toList ++ [parts.parameters] ++ parts.returnType.toList

theorem IsPartsOf.isBody (isParts : IsPartsOf kind children parts) :
    parts.body.kind = .functionBody := by
  simpa using List.find?_some isParts.body.symm

theorem IsPartsOf.areParameters (isParts : IsPartsOf kind children parts) :
    parts.parameters.kind = .parameters := by
  simpa using List.find?_some isParts.parameters.symm

theorem IsPartsOf.notBody (isParts : IsPartsOf kind children parts) {part : Node}
    (inFront : part ∈ parts.front) : part.kind ≠ .functionBody := by
  rw [Parts.front, List.mem_append, List.mem_append, List.mem_singleton,
    Option.mem_toList, Option.mem_toList] at inFront
  rcases inFront with (isType | rfl) | isType
  · rw [isParts.typeParameters] at isType
    have isKind := List.find?_some isType
    intro isBody
    simp [isBody] at isKind
  · rw [isParts.areParameters]
    exact Kind.noConfusion
  · rw [isParts.returnType] at isType
    have isKind := List.find?_some isType
    intro isBody
    simp [isBody] at isKind

/-- The parts before the body reach from the start of the first to the end of the last. -/
theorem Parts.bounds (ordered : (parts.front ++ [parts.body]).Pairwise fun part other =>
      part.span.stop ≤ other.span.start)
    (forward : ∀ part ∈ parts.front, part.span.start ≤ part.span.stop) :
    (∀ part ∈ parts.front, parts.headEnd ≤ part.span.start ∧ part.span.stop ≤ parts.tailStart) ∧
    parts.headEnd ≤ parts.tailStart ∧ parts.tailStart ≤ parts.body.span.start := by
  rcases parts with ⟨typeParameters, parameters, returnType, body⟩
  cases typeParameters <;> cases returnType <;>
    simp [Parts.front, Parts.headEnd, Parts.tailStart] at * <;> omega

/-- How the parts of a function that becomes an arrow stand in the text. -/
structure Stands (source : List Char) (kind : Kind) (span : Span) (children : List Node)
    (own : Parts) : Prop where
  isFunction : ∃ form, kind = .function form
  children_eq : children = own.front ++ [own.body]
  isBody : own.body.kind = .functionBody
  notBody : ∀ part ∈ own.front, part.kind ≠ .functionBody
  areParameters : own.parameters.kind = .parameters
  inFront : ∀ part ∈ own.front,
    own.headEnd ≤ part.span.start ∧ part.span.stop ≤ own.tailStart
  ordered : own.front.Pairwise fun part other => part.span.stop ≤ other.span.start
  opening : IsRange source ⟨span.start, own.headEnd⟩
  head : IsRange source ⟨own.headEnd, own.tailStart⟩
  arrow : IsRange source ⟨own.tailStart, own.body.span.start⟩
  closing : own.body.span.stop = span.stop
  noFunction : ∀ child ∈ children, child.endsInFunction = false
  behindParenthesis : ∀ parameter ∈ own.parameters.children,
    own.parameters.span.start < parameter.span.start

theorem parts?_of_converted? {node : Node} {slot : Slot}
    (isConverted : converted? node slot = some parts) :
    parts? node.kind node.children = some parts :=
  (Option.filter_eq_some_iff.1 isConverted).1

theorem stands_of_converted? {source : List Char} {slot : Slot}
    (nested : (Node.mk kind span children).isNested = true)
    (inText : (Node.mk kind span children).isInText source = true)
    (laidOut : isLaidOut (.mk kind span children) = true)
    (isConverted : converted? (.mk kind span children) slot = some parts) :
    Stands source kind span children parts := by
  have isParts : parts? kind children = some parts := parts?_of_converted? isConverted
  rcases (isFunctionLaidOut_iff isParts).1 (isLaidOut_mk.1 laidOut).1 with
    ⟨⟨⟨layout, closing⟩, noFunction⟩, written⟩
  have isPartsOf := isPartsOf_of_parts? isParts
  have children_eq : children = parts.front ++ [parts.body] := isPartsOf.children_eq layout
  have inChildren (part : Node) (inFront : part ∈ parts.front) : part ∈ children := by
    rw [children_eq]
    exact List.mem_append_left _ inFront
  have isRange (child : Node) (isChild : child ∈ children) : IsRange source child.span :=
    Node.isRange_span (Node.isNested_of_mem_children nested isChild)
      (Node.isInText_of_mem_children inText isChild)
  have ordered : (parts.front ++ [parts.body]).Pairwise fun part other =>
      part.span.stop ≤ other.span.start :=
    children_eq ▸ Node.ordered_children nested
  rcases Parts.bounds ordered fun part inFront => (isRange part (inChildren part inFront)).forward
    with ⟨inFront, forward, before⟩
  have first := inChildren (parts.typeParameters.getD parts.parameters) (by
    cases isType : parts.typeParameters <;> simp [Parts.front, isType])
  have last := inChildren (parts.returnType.getD parts.parameters) (by
    cases isType : parts.returnType <;> simp [Parts.front, isType])
  have body := isRange parts.body (by simp [children_eq])
  have whole := Node.isRange_span nested inText
  have startsBehind := Node.contains_of_mem_children nested first
  rw [Span.contains_iff] at startsBehind
  exact {
    isFunction := isPartsOf.isFunction
    children_eq := children_eq
    isBody := isPartsOf.isBody
    notBody := fun part => isPartsOf.notBody
    areParameters := isPartsOf.areParameters
    inFront := inFront
    ordered := (List.pairwise_append.1 ordered).1
    opening := ⟨startsBehind.1,
      Nat.le_trans (isRange _ first).forward (isRange _ first).inside, whole.startBoundary,
      (isRange _ first).startBoundary⟩
    head := ⟨forward, (isRange _ last).inside, (isRange _ first).startBoundary,
      (isRange _ last).stopBoundary⟩
    arrow := ⟨before, Nat.le_trans body.forward body.inside, (isRange _ last).stopBoundary,
      body.startBoundary⟩
    closing := closing
    noFunction := noFunction
    behindParenthesis := fun parameter isParameter => (written parameter isParameter).1 }

/-! ## Edits of the parts of a node -/

section Assembly

variable {program : Program} {style : Style} {slot : Slot} {node : Node} {edit : Edit}

/-- The edits planned for a node make its new text, and the erased ones are lost. -/
def Agrees (program : Program) (style : Style) (node : Node) : Prop :=
  ∀ slot, Arranges program.source node.span.start node.span.stop
    (planFrom program style node slot).edits ((rewriting program style node).text slot)
    (erased program style node slot)

theorem converted?_eq_none (notFunction : ∀ form, node.kind ≠ .function form) :
    converted? node slot = none := by
  cases isConverted : converted? node slot with
  | none => rfl
  | some parts =>
    rcases (isPartsOf_of_parts? (parts?_of_converted? isConverted)).isFunction with
      ⟨form, isFunction⟩
    exact absurd isFunction (notFunction form)

/-- What is planned for a node that is no function is planned for one of its parts. -/
theorem exists_child_of_mem_planFrom (notFunction : ∀ form, node.kind ≠ .function form)
    (isPlanned : edit ∈ (planFrom program style node slot).edits) :
    ∃ child ∈ node.children, ∃ place, edit ∈ (planFrom program style child place).edits := by
  have noOwn : ownEdits program style node slot = [] := by
    rw [ownEdits, converted?_eq_none notFunction]
  rcases node with ⟨kind, span, children⟩
  rw [edits_planFrom_mk, noOwn, List.nil_append, List.mem_flatMap] at isPlanned
  rcases isPlanned with ⟨⟨child, index⟩, isPart, isPlanned⟩
  exact ⟨child, List.fst_mem_of_mem_zipIdx isPart, _, isPlanned⟩

/-- Nothing is planned at the end of a node that has no function there. -/
theorem start_lt_stop_of_mem_planFrom
    (agree : ∀ path inner, node.at? path = some inner → Agrees program style inner)
    (nested : node.isNested = true) (noFunction : node.endsInFunction = false)
    (isPlanned : edit ∈ (planFrom program style node slot).edits) :
    edit.start < node.span.stop := by
  induction node using Node.induction generalizing slot with
  | step kind span children ih =>
    rcases Node.endsInFunction_mk.1 noFunction with ⟨notFunction, noneAtEnd⟩
    rcases exists_child_of_mem_planFrom
        (show ∀ form, (Node.mk kind span children).kind ≠ .function form from notFunction)
        isPlanned with ⟨child, isChild, place, isPlanned⟩
    rcases List.getElem?_of_mem isChild with ⟨index, isAt⟩
    have below : ∀ path inner, child.at? path = some inner → Agrees program style inner :=
      fun path inner reached =>
        agree (index :: path) inner (Node.at?_of_getElem? isAt reached)
    have bounds := (below [] child (Node.at?_nil child) place).inside edit isPlanned
    have within := Span.contains_iff.1 (Node.contains_of_mem_children nested isChild)
    by_cases atEnd : child.span.stop = span.stop
    · have earlier := ih child isChild below
        (Node.isNested_of_mem_children nested isChild) (noneAtEnd child isChild atEnd)
        isPlanned
      exact Nat.lt_of_lt_of_le earlier within.2
    · have shorter : child.span.stop < span.stop := Nat.lt_of_le_of_ne within.2 atEnd
      change edit.start < span.stop
      omega

/-- A node that stays keeps its text around its parts. -/
theorem agrees_of_unconverted (nested : (Node.mk kind span children).isNested = true)
    (inText : (Node.mk kind span children).isInText program.source = true)
    (agree : ∀ child ∈ children, Agrees program style child)
    (isKept : converted? (.mk kind span children) slot = none) :
    Arranges program.source span.start span.stop
      (planFrom program style (.mk kind span children) slot).edits
      ((rewriting program style (.mk kind span children)).text slot)
      (erased program style (.mk kind span children) slot) := by
  have range := Node.isRange_span nested inText
  have isPart {part : Node × Nat} (member : part ∈ children.zipIdx) : part.1 ∈ children :=
    List.fst_mem_of_mem_zipIdx member
  have ordered : (children.zipIdx.map Prod.fst).Pairwise fun part other =>
      part.span.stop ≤ other.span.start := by
    rw [List.zipIdx_map_fst]
    exact Node.ordered_children nested
  have filled := Arranges.fill children.zipIdx (fun part => part.1.span) range
    (fun part member => Span.contains_iff.1 (Node.contains_of_mem_children nested (isPart member)))
    (List.pairwise_map.1 ordered)
    (fun part member => agree part.1 (isPart member) (childSlot kind children slot part.2))
  rw [edits_planFrom_mk, ownEdits, isKept, text_rewriting_mk, isKept, erased_mk]
  simpa [newParts, isBareArrow, isKept, Function.comp_def] using filled

/-! ## Edits of a function -/

theorem arranges_insert {source : List Char} {offset : Nat} {text : List Char}
    (isBare : Bool) (range : IsRange source ⟨offset, offset⟩) :
    Arranges source offset offset (if isBare then [] else [.insert offset text])
      (if isBare then [] else text) [] := by
  cases isBare with
  | true =>
    have copied := Arranges.copied range
    rw [Text.slice_self] at copied
    exact copied
  | false => exact Arranges.replaced (show IsRange source (Edit.insert offset text).span from range)

/-- The edit that puts a name in place of a list of parameters. -/
def bareEdits (style : Style) (own : Parts) : List Edit :=
  (bareParameter? style own).toList.map fun name =>
    .replace own.parameters.span name.toList

variable {own : Parts}

/-- Only a parameter without types around it can stand alone. -/
theorem front_of_bareParameter? {name : String} (isBare : bareParameter? style own = some name) :
    own.front = [own.parameters] ∧ own.headEnd = own.parameters.span.start ∧
      own.tailStart = own.parameters.span.stop := by
  rw [bareParameter?] at isBare
  split at isBare
  · cases isBare
  · next untyped =>
    simp only [Bool.or_eq_true, not_or, Bool.not_eq_true, Option.isSome_eq_false_iff,
      Option.isNone_iff_eq_none] at untyped
    rw [Parts.front, Parts.headEnd, Parts.tailStart, untyped.1.2, untyped.2]
    exact ⟨rfl, rfl, rfl⟩

/-- What stands before the arrow comes from the edits of the parts there. -/
theorem arranges_head (stands : Stands program.source kind span children own)
    (nested : own.parameters.isNested = true)
    (agree : ∀ part ∈ own.front, ∀ path inner, part.at? path = some inner →
      Agrees program style inner) :
    Arranges program.source own.headEnd own.tailStart (bareEdits style own ++
        own.front.flatMap fun part => (planFrom program style part .other).edits)
      (headText program style own
        (children.map fun part => (part, (rewriting program style part).text .other)))
      (own.front.flatMap fun part =>
        if (bareParameter? style own).isSome && part.kind == .parameters then
          (planFrom program style part .other).edits
        else erased program style part .other) := by
  rw [headText, bareEdits]
  cases isBare : bareParameter? style own with
  | none =>
    have filled := Arranges.fill own.front Node.span stands.head stands.inFront
      stands.ordered fun part inFront =>
        agree part inFront [] part (Node.at?_nil part) Slot.other
    have others : (children.map fun part =>
          (part, (rewriting program style part).text .other)).filter
          (fun part => part.1.kind != .functionBody) =
        own.front.map fun part => (part, (rewriting program style part).text .other) := by
      rw [stands.children_eq, List.map_append, List.filter_append, List.filter_map,
        List.filter_eq_self.2]
      · simp [stands.isBody]
      · intro part inFront
        simpa using stands.notBody part inFront
    simp only [others, List.map_map, Function.comp_def]
    simpa using filled
  | some name =>
    rcases front_of_bareParameter? isBare with ⟨front_eq, headEnd_eq, tailStart_eq⟩
    have inFront : own.parameters ∈ own.front := by simp [front_eq]
    have inChildren : own.parameters ∈ children := by
      rw [stands.children_eq]
      exact List.mem_append_left _ inFront
    have own_agree := agree own.parameters inFront
    have range : IsRange program.source own.parameters.span := by
      have head := stands.head
      rw [headEnd_eq, tailStart_eq] at head
      exact head
    have notFunction : ∀ form, own.parameters.kind ≠ .function form := by
      rw [stands.areParameters]
      intro form
      exact Kind.noConfusion
    -- All that is planned for the parameters lies inside their parentheses.
    have covered : ∀ edit ∈ (planFrom program style own.parameters .other).edits,
        own.parameters.span.start < edit.start ∧ edit.start < own.parameters.span.stop ∧
          edit.start ≤ edit.stop ∧ edit.stop ≤ own.parameters.span.stop := by
      intro edit isPlanned
      have bounds := (own_agree [] own.parameters (Node.at?_nil _) .other).inside edit isPlanned
      have early := start_lt_stop_of_mem_planFrom own_agree nested
        (stands.noFunction _ inChildren) isPlanned
      rcases exists_child_of_mem_planFrom notFunction isPlanned with
        ⟨parameter, isParameter, place, isInner⟩
      rcases List.getElem?_of_mem isParameter with ⟨index, isAt⟩
      have inner := own_agree [index] parameter (Node.at?_of_getElem? isAt (Node.at?_nil parameter))
      have behind := (inner place).inside edit isInner
      have parenthesis := stands.behindParenthesis parameter isParameter
      omega
    have arranged := Arranges.erased
      (show IsRange program.source (Edit.replace own.parameters.span name.toList).span from
        range) covered
    rw [headEnd_eq, tailStart_eq, front_eq]
    simp only [Option.toList_some, List.map_cons, List.map_nil, List.flatMap_cons,
      List.flatMap_nil, List.append_nil, Option.isSome_some, stands.areParameters,
      beq_self_eq_true, Bool.and_self, if_true]
    exact arranged

/-- A body with a returned value holds nothing else. -/
theorem eq_of_returnedValue? {comments : List Span} {body value : Node}
    (isReturned : returnedValue? comments body = some value) :
    ∃ kind bodySpan span, body = .mk kind bodySpan [.mk .returnStatement span [value]] := by
  rcases body with ⟨kind, bodySpan, statements⟩
  unfold returnedValue? at isReturned
  split at isReturned
  · next span returned only =>
    simp only [Option.ite_none_left_eq_some, Option.some.injEq] at isReturned
    rcases isReturned with ⟨_, rfl⟩
    exact ⟨kind, bodySpan, span, congrArg (Node.mk kind bodySpan) only⟩
  · cases isReturned

section Single

variable {child : Node} (notFunction : ∀ form, kind ≠ .function form)
include notFunction

theorem edits_planFrom_single : (planFrom program style (.mk kind span [child]) slot).edits =
      (planFrom program style child (childSlot kind [child] slot 0)).edits := by
  have kept : converted? (.mk kind span [child]) slot = none := converted?_eq_none notFunction
  simp [edits_planFrom_mk, ownEdits, kept]

theorem erased_single : erased program style (.mk kind span [child]) slot =
      erased program style child (childSlot kind [child] slot 0) := by
  have kept : converted? (.mk kind span [child]) slot = none := converted?_eq_none notFunction
  simp [erased_mk, isBareArrow, kept]

end Single

/-- What stands behind the arrow comes from the edits of the body. -/
theorem arranges_body {body : Node} (isBody : body.kind = .functionBody)
    (noFunction : body.endsInFunction = false)
    (nested : body.isNested = true) (inText : body.isInText program.source = true)
    (agree : ∀ path inner, body.at? path = some inner → Agrees program style inner) :
    Arranges program.source body.span.start body.span.stop
      (bodyEdits program body ++ (planFrom program style body .other).edits)
      (bodyText program body ((rewriting program style body).text .other)
        (rewriting program style body).value)
      (erased program style body .other) := by
  have early : ∀ edit ∈ (planFrom program style body .other).edits,
      edit.start < body.span.stop := fun edit isPlanned =>
    start_lt_stop_of_mem_planFrom agree nested noFunction isPlanned
  rw [bodyEdits, bodyText]
  cases isReturned : returnedValue? program.comments body with
  | none => exact agree [] body (Node.at?_nil _) .other
  | some value =>
    rcases eq_of_returnedValue? isReturned with ⟨kind, bodySpan, statementSpan, rfl⟩
    obtain rfl : kind = .functionBody := isBody
    have planned_eq : (planFrom program style (.mk .functionBody bodySpan
        [.mk .returnStatement statementSpan [value]]) .other).edits =
          (planFrom program style value ⟨true, false⟩).edits := by
      rw [edits_planFrom_single fun _ => Kind.noConfusion,
        edits_planFrom_single fun _ => Kind.noConfusion]
      rfl
    have erased_eq : erased program style (.mk .functionBody bodySpan
        [.mk .returnStatement statementSpan [value]]) .other =
          erased program style value ⟨true, false⟩ := by
      rw [erased_single fun _ => Kind.noConfusion, erased_single fun _ => Kind.noConfusion]
      rfl
    have value_eq : (rewriting program style (.mk .functionBody bodySpan
        [.mk .returnStatement statementSpan [value]])).value =
          (rewriting program style value).text ⟨true, false⟩ := by
      simp [value_rewriting_mk]
    rw [planned_eq] at early ⊢
    rw [erased_eq, value_eq]
    have inner := agree [0, 0] value rfl ⟨true, false⟩
    have range := Node.isRange_span nested inText
    have statement : Node.mk .returnStatement statementSpan [value] ∈
        (Node.mk .functionBody bodySpan [.mk .returnStatement statementSpan [value]]).children :=
      List.mem_singleton.2 rfl
    have within := Span.contains_trans (Node.contains_of_mem_children nested statement)
      (Node.contains_of_mem_children (Node.isNested_of_mem_children nested statement)
        (List.mem_singleton.2 rfl))
    rw [Span.contains_iff] at within
    have before : IsRange program.source ⟨bodySpan.start, value.span.start⟩ :=
      ⟨within.1, Nat.le_trans inner.range.forward inner.range.inside, range.startBoundary,
        inner.range.startBoundary⟩
    have behind : IsRange program.source ⟨value.span.stop, bodySpan.stop⟩ :=
      ⟨within.2, range.inside, inner.range.stopBoundary, range.stopBoundary⟩
    have enclosed := inner.enclosed before behind early
    dsimp only
    split
    · exact enclosed ['('] [')']
    · simpa using enclosed [] []

theorem flatMap_zipIdx {α : Type} (items : List Node) (each : Node → List α) :
    (items.zipIdx.flatMap fun part => each part.1) = items.flatMap each := by
  rw [← List.flatMap_map, List.zipIdx_map_fst]

section Function

variable {own : Parts} (stands : Stands program.source kind span children own)
  (isConverted : converted? (.mk kind span children) slot = some own)
include stands

/-- The parts of a function stand in places about which nothing is known. -/
theorem Stands.childSlot_eq (index : Nat) : childSlot kind children slot index = .other := by
  rcases stands.isFunction with ⟨form, rfl⟩
  rfl

include isConverted

theorem Stands.edits_eq : (planFrom program style (.mk kind span children) slot).edits =
      conversion program style kind span slot own ++
        ((own.front.flatMap fun part => (planFrom program style part .other).edits) ++
          (planFrom program style own.body .other).edits) := by
  simp only [edits_planFrom_mk, ownEdits, isConverted, stands.childSlot_eq, Node.kind_mk,
    Node.span_mk]
  rw [flatMap_zipIdx children fun part => (planFrom program style part .other).edits,
    stands.children_eq, List.flatMap_append, List.flatMap_singleton]

theorem Stands.text_eq : (rewriting program style (.mk kind span children)).text slot =
      (if slot.isBare then [] else ['(']) ++ (if isAsync kind then "async ".toList else []) ++
        headText program style own
          (children.map fun part => (part, (rewriting program style part).text .other)) ++
        " => ".toList ++
        bodyText program own.body ((rewriting program style own.body).text .other)
          (rewriting program style own.body).value ++
        (if slot.isBare then [] else [')']) := by
  have parts_eq : newParts program style kind children slot =
      children.map fun part => (part, (rewriting program style part).text .other) := by
    simp only [newParts, stands.childSlot_eq]
    calc children.zipIdx.map (fun part => (part.1, (rewriting program style part.1).text .other))
        = (children.zipIdx.map Prod.fst).map
            (fun part => (part, (rewriting program style part).text .other)) := by
          rw [List.map_map]
          rfl
      _ = _ := by rw [List.zipIdx_map_fst]
  have onlyBody {α : Type} (each : Node → List α) :
      ((children.filter fun child => child.kind == .functionBody).flatMap each) =
        each own.body := by
    rw [stands.children_eq, List.filter_append, List.filter_eq_nil_iff.2]
    · simp [stands.isBody]
    · intro part inFront
      simpa using stands.notBody part inFront
  have body_eq := onlyBody fun part => (rewriting program style part).text .other
  have value_eq := onlyBody fun part => (rewriting program style part).value
  simp only [text_rewriting_mk, isConverted, conversionText, parts_eq, List.filter_map,
    Function.comp_def, List.flatMap_map, body_eq, value_eq]

theorem Stands.erased_eq : erased program style (.mk kind span children) slot =
      (own.front.flatMap fun part =>
        if (bareParameter? style own).isSome && part.kind == .parameters then
          (planFrom program style part .other).edits
        else erased program style part .other) ++ erased program style own.body .other := by
  simp only [erased_mk, isBareArrow, isConverted, Option.bind_some, stands.childSlot_eq]
  rw [flatMap_zipIdx children fun part =>
      if (bareParameter? style own).isSome && part.kind == .parameters then
        (planFrom program style part .other).edits
      else erased program style part .other,
    stands.children_eq, List.flatMap_append, List.flatMap_singleton]
  simp [stands.isBody]

end Function

/-- The edits of a function before its parameters, and the one that replaces them. -/
def openingEdits (style : Style) (kind : Kind) (span : Span) (slot : Slot) (own : Parts) :
    List Edit :=
  (if slot.isBare then [] else [.insert span.start ['(']]) ++
    [.replace ⟨span.start, own.headEnd⟩ (if isAsync kind then "async ".toList else [])] ++
    bareEdits style own

/-- The edits of a function between its head and its end. -/
def joiningEdits (program : Program) (own : Parts) : List Edit :=
  [.replace ⟨own.tailStart, own.body.span.start⟩ " => ".toList] ++
    bodyEdits program own.body

/-- The edit of a function at its end. -/
def closingEdits (span : Span) (slot : Slot) : List Edit :=
  if slot.isBare then [] else [.insert span.stop [')']]

theorem conversion_eq : conversion program style kind span slot own =
      openingEdits style kind span slot own ++ joiningEdits program own ++
        closingEdits span slot := by
  rw [openingEdits, joiningEdits, closingEdits, ← List.append_assoc]
  rfl

/-- The edits of the parts of a function may be taken in between its own. -/
theorem alike_conversion {inFront inBody : List Edit}
    (joined : ∀ edit ∈ joiningEdits program own, own.tailStart ≤ edit.start)
    (reaches : own.tailStart ≤ span.stop) (early : ∀ edit ∈ inFront, edit.start < own.tailStart)
    (inside : ∀ edit ∈ inBody, edit.start < span.stop) :
    Alike (conversion program style kind span slot own ++ (inFront ++ inBody))
      (openingEdits style kind span slot own ++ inFront ++
        (joiningEdits program own ++ inBody) ++ closingEdits span slot) := by
  have atEnd : ∀ edit ∈ closingEdits span slot, edit.start = span.stop := by
    rw [closingEdits]
    cases slot.isBare <;> simp [Edit.insert]
  rw [conversion_eq]
  apply Alike.interleave
  · intro edit isEdit other isOther same
    have before := early other isOther
    have starts : edit.start = other.start := congrArg Span.start same
    rcases List.mem_append.1 isEdit with isJoining | isClosing
    · have behind := joined edit isJoining
      omega
    · have behind := atEnd edit isClosing
      omega
  · intro edit isEdit other isOther same
    have before := inside other isOther
    have starts : edit.start = other.start := congrArg Span.start same
    have behind := atEnd edit isEdit
    omega

/-- A function that becomes an arrow has the text of the arrow in its place. -/
theorem agrees_of_converted (nested : (Node.mk kind span children).isNested = true)
    (inText : (Node.mk kind span children).isInText program.source = true)
    (laidOut : isLaidOut (.mk kind span children) = true)
    (agree : ∀ child ∈ children, ∀ path inner, child.at? path = some inner →
      Agrees program style inner)
    (isConverted : converted? (.mk kind span children) slot = some own) :
    Arranges program.source span.start span.stop
      (planFrom program style (.mk kind span children) slot).edits
      ((rewriting program style (.mk kind span children)).text slot)
      (erased program style (.mk kind span children) slot) := by
  have stands := stands_of_converted? nested inText laidOut isConverted
  have inChildren (part : Node) (inFront : part ∈ own.front) : part ∈ children := by
    rw [stands.children_eq]
    exact List.mem_append_left _ inFront
  have body : own.body ∈ children := by simp [stands.children_eq]
  have parameters : own.parameters ∈ children := inChildren own.parameters (by simp [Parts.front])
  have range := Node.isRange_span nested inText
  -- The pieces of the arrow, from left to right.
  have opened : Arranges program.source span.start span.start
      (if slot.isBare then [] else [.insert span.start ['(']])
      (if slot.isBare then [] else ['(']) [] :=
    arranges_insert slot.isBare
      ⟨Nat.le_refl _, Nat.le_trans range.forward range.inside, range.startBoundary,
        range.startBoundary⟩
  have keyword := Arranges.replaced
    (show IsRange program.source (Edit.replace ⟨span.start, own.headEnd⟩
      (if isAsync kind then "async ".toList else [])).span from stands.opening)
  have head := arranges_head stands (Node.isNested_of_mem_children nested parameters)
    fun part inFront => agree part (inChildren part inFront)
  have arrow := Arranges.replaced
    (show IsRange program.source (Edit.replace ⟨own.tailStart, own.body.span.start⟩
      " => ".toList).span from stands.arrow)
  have behind := arranges_body stands.isBody (stands.noFunction _ body)
    (Node.isNested_of_mem_children nested body) (Node.isInText_of_mem_children inText body)
    (agree _ body)
  have closed : Arranges program.source span.stop span.stop (closingEdits span slot)
      (if slot.isBare then [] else [')']) [] :=
    arranges_insert slot.isBare
      ⟨Nat.le_refl _, range.inside, range.stopBoundary, range.stopBoundary⟩
  rw [stands.closing] at behind
  have whole := ((((opened.append keyword).append head).append arrow).append behind).append closed
  simp only [List.nil_append, List.append_nil] at whole
  rw [stands.edits_eq isConverted, stands.text_eq isConverted, stands.erased_eq isConverted]
  have before : own.tailStart ≤ own.body.span.start := stands.arrow.forward
  -- What is planned for the parts keeps clear of the function's own edits behind them.
  apply whole.reorder
  refine (alike_conversion ?_ ?_ ?_ ?_).trans (.of_eq ?_)
  · intro edit isEdit
    rcases List.mem_append.1 isEdit with isArrow | isBody
    · rw [List.mem_singleton.1 isArrow]
      exact Nat.le_refl _
    · have starts := (behind.inside edit (List.mem_append_left _ isBody)).1
      exact Nat.le_trans before starts
  · exact Nat.le_trans before behind.range.forward
  · intro edit isPlanned
    rcases List.mem_flatMap.1 isPlanned with ⟨part, inFront, isPlanned⟩
    have isChild := inChildren part inFront
    have early := start_lt_stop_of_mem_planFrom (agree part isChild)
      (Node.isNested_of_mem_children nested isChild) (stands.noFunction part isChild) isPlanned
    exact Nat.lt_of_lt_of_le early (stands.inFront part inFront).2
  · intro edit isPlanned
    have early := start_lt_stop_of_mem_planFrom (agree own.body body)
      (Node.isNested_of_mem_children nested body) (stands.noFunction _ body) isPlanned
    rwa [stands.closing] at early
  · simp only [openingEdits, joiningEdits, List.append_assoc]

/-- What is planned for a tree agrees with its rewriting, everywhere in the tree. -/
theorem agrees_at (nested : node.isNested = true)
    (inText : node.isInText program.source = true) (laidOut : isLaidOut node = true)
    {path : List Nat} {inner : Node} (reached : node.at? path = some inner) :
    Agrees program style inner := by
  induction node using Node.induction generalizing path inner with
  | step kind span children ih =>
    have below (child : Node) (isChild : child ∈ children) (path : List Nat) (inner : Node)
        (reached : child.at? path = some inner) : Agrees program style inner :=
      ih child isChild (Node.isNested_of_mem_children nested isChild)
        (Node.isInText_of_mem_children inText isChild)
        (isLaidOut_of_mem_children laidOut isChild) reached
    cases path with
    | nil =>
      rw [Node.at?_nil, Option.some.injEq] at reached
      subst reached
      intro slot
      cases isConverted : converted? (.mk kind span children) slot with
      | none =>
        apply agrees_of_unconverted nested inText _ isConverted
        intro child isChild
        exact below child isChild [] child (Node.at?_nil child)
      | some own => exact agrees_of_converted nested inText laidOut below isConverted
    | cons index path =>
      rcases Node.at?_cons_eq_some_iff.1 reached with ⟨child, isChild, reached⟩
      exact below child (List.mem_of_getElem? isChild) path inner reached

end Assembly

/-! ## Parameters without decorators -/

section Undecorated

variable {program : Program} {style : Style} {node : Node} {slot : Slot} {own : Parts}

/-- A parameter that can stand alone has at most decorators before its name. -/
theorem parameters_of_bareParameter? {name : String}
    (isBare : bareParameter? style own = some name) :
    ∃ span before nameSpan, own.parameters.children =
      [.mk (.parameter false) span (before ++ [.mk (.binding name) nameSpan []])] := by
  rw [bareParameter?] at isBare
  split at isBare
  · cases isBare
  · split at isBare
    · next span children only =>
      split at isBare
      · next found nameSpan isLast =>
        cases isBare
        rcases List.getLast?_eq_some_iff.1 isLast with ⟨before, rfl⟩
        exact ⟨span, before, nameSpan, only⟩
      · cases isBare
    · cases isBare

/-- Nothing is planned for a parameter that is only a name. -/
theorem edits_planFrom_bare {name : String} {listSpan span nameSpan : Span} :
    (planFrom program style (.mk .parameters listSpan
      [.mk (.parameter false) span [.mk (.binding name) nameSpan []]]) slot).edits = [] := by
  rw [edits_planFrom_single fun _ => Kind.noConfusion,
    edits_planFrom_single fun _ => Kind.noConfusion, edits_planFrom_mk, ownEdits,
    converted?_eq_none fun _ => Kind.noConfusion]
  rfl

/-- Nothing is erased in a tree without decorators of parameters. -/
theorem erased_eq_nil (laidOut : isLaidOut node = true)
    (undecorated : ∀ path parameter isOptional, node.at? path = some parameter →
      parameter.kind = .parameter isOptional →
      ∀ part ∈ parameter.children, part.kind ≠ .decorator) :
    erased program style node slot = [] := by
  induction node using Node.induction generalizing slot with
  | step kind span children ih =>
    rw [erased_mk, List.flatMap_eq_nil_iff]
    rintro ⟨child, index⟩ isPart
    have isAt := List.mem_zipIdx_iff_getElem?.1 isPart
    have isChild := List.mem_of_getElem? isAt
    split
    · next isBare =>
      rw [Bool.and_eq_true, isBareArrow, Option.isSome_iff_exists, beq_iff_eq] at isBare
      rcases isBare with ⟨⟨name, isName⟩, isParameters⟩
      rcases Option.bind_eq_some_iff.1 isName with ⟨own, isConverted, isName⟩
      have isParts : parts? kind children = some own := parts?_of_converted? isConverted
      rcases (isFunctionLaidOut_iff isParts).1 (isLaidOut_mk.1 laidOut).1 with
        ⟨⟨⟨layout, _⟩, _⟩, written⟩
      have isPartsOf := isPartsOf_of_parts? isParts
      have children_eq : children = own.front ++ [own.body] := isPartsOf.children_eq layout
      obtain rfl : child = own.parameters := by
        rw [children_eq, (front_of_bareParameter? isName).1, List.mem_append,
          List.mem_singleton, List.mem_singleton] at isChild
        rcases isChild with same | same
        · exact same
        · rw [same, isPartsOf.isBody] at isParameters
          cases isParameters
      rcases parameters_of_bareParameter? isName with ⟨span, before, nameSpan, only⟩
      have undecoratedName := undecorated [index, 0] _ false
        (Node.at?_of_getElem? isAt (Node.at?_of_getElem? (by rw [only]; rfl)
          (Node.at?_nil _))) rfl
      -- Only decorators may stand before the name, and there are none.
      have noDecorators : before = [] := by
        apply List.eq_nil_iff_forall_not_mem.2
        intro part isBefore
        have onlyDecorators := (written _ (by rw [only]; exact List.mem_singleton.2 rfl)).2
        rw [Node.children_mk, List.dropLast_concat] at onlyDecorators
        exact undecoratedName part (List.mem_append_left _ isBefore) (onlyDecorators part isBefore)
      have parameters_eq : own.parameters = .mk .parameters own.parameters.span
          [.mk (.parameter false) span [.mk (.binding name) nameSpan []]] := by
        rw [noDecorators, List.nil_append] at only
        rw [← only, ← isPartsOf.areParameters]
        cases own.parameters
        rfl
      rw [parameters_eq]
      exact edits_planFrom_bare
    · apply ih child isChild (isLaidOut_of_mem_children laidOut isChild)
      intro path parameter isOptional reached
      exact undecorated (index :: path) parameter isOptional (Node.at?_of_getElem? isAt reached)

end Undecorated

/--
Carried out together, the edits of all functions make of a text what its tree
becomes by recursion.  The edits that are dropped are those planned inside a
list of parameters that becomes a single name, and there are none of them
unless a parameter has a decorator.
-/
theorem conversions_rewrite_the_tree (program : Program) (options : TransformOptions)
    (whole : program.root.span = ⟨0, Text.byteLength program.source⟩)
    (nested : program.root.isNested = true)
    (inText : program.root.isInText program.source = true)
    (laidOut : isLaidOut program.root = true) :
    (applyEdits program.source (Transform.functionToArrow.plan program options).edits).text =
      (rewriting program options.style program.root).text .other ∧
    (applyEdits program.source
      (Transform.functionToArrow.plan program options).edits).dropped.Perm
        (erased program options.style program.root .other) ∧
    ((∀ path parameter isOptional, program.root.at? path = some parameter →
        parameter.kind = .parameter isOptional →
        ∀ part ∈ parameter.children, part.kind ≠ .decorator) →
      (applyEdits program.source
        (Transform.functionToArrow.plan program options).edits).dropped = []) := by
  change (applyEdits program.source (planFrom program options.style program.root .other).edits).text
      = _ ∧ (applyEdits program.source
        (planFrom program options.style program.root .other).edits).dropped.Perm _ ∧ _
  have agrees : Agrees program options.style program.root :=
    agrees_at nested inText laidOut (Node.at?_nil program.root)
  have arranged := agrees .other
  rw [whole] at arranged
  rcases arranged.applyEdits with ⟨text_eq, isLost⟩
  refine ⟨text_eq, isLost, fun undecorated => ?_⟩
  rw [erased_eq_nil laidOut undecorated] at isLost
  exact isLost.eq_nil

/-- Functions in a default value, in a body and in a returned value. -/
def nestedFunctions : List Char :=
  "f(function (a = function () { return 1; }) {
    return function (b) { return { c: b }; };
  });".toList

theorem conversions_rewrite_the_tree_in_nestedFunctions :
    ∃ program, parseProgram (.ofPath "a.js") nestedFunctions = some program ∧
      program.root.isNested = true ∧
      (applyEdits program.source
        (Transform.functionToArrow.plan program .standard).edits) =
        ⟨"f((a = () => 1) => (b) => ({ c: b }));".toList, []⟩ := by
  obtain ⟨program, parsed, whole, nested, inText, laidOut, text_eq, noneErased⟩ :
      ∃ program ∈ parseProgram (.ofPath "a.js") nestedFunctions,
      program.root.span = ⟨0, Text.byteLength program.source⟩ ∧
        program.root.isNested = true ∧ program.root.isInText program.source = true ∧
        isLaidOut program.root = true ∧
        (rewriting program TransformOptions.standard.style program.root).text .other =
          "f((a = () => 1) => (b) => ({ c: b }));".toList ∧
        erased program TransformOptions.standard.style program.root .other = [] := by
    decide +kernel
  rcases conversions_rewrite_the_tree program .standard whole nested inText laidOut with
    ⟨isText, isLost, _⟩
  rw [text_eq] at isText
  rw [noneErased] at isLost
  refine ⟨program, parsed, nested, ?_⟩
  rw [← isText, ← isLost.eq_nil]

/-- A function in a decorator of a parameter that can stand alone. -/
def decoratedParameter : List Char :=
  "const f = function(@(function(){ return 1; }) x) { return x; };".toList

/-- The function in the decorator is planned to become an arrow and is lost with it. -/
theorem decorated_parameter_drops_conversion :
    ∃ program, parseProgram (.ofPath "a.jsx") decoratedParameter = some program ∧
      program.root.span = ⟨0, Text.byteLength program.source⟩ ∧
      program.root.isNested = true ∧ program.root.isInText program.source = true ∧
      isLaidOut program.root = true ∧
      ∃ options : TransformOptions,
        (applyEdits program.source
          (Transform.functionToArrow.plan program options).edits).dropped =
          [.replace ⟨21, 29⟩ [], .replace ⟨31, 31⟩ " => ".toList, .replace ⟨31, 40⟩ [],
            .replace ⟨41, 44⟩ []] := by
  obtain ⟨program, parsed, whole, nested, inText, laidOut, dropped_eq⟩ :
      ∃ program ∈ parseProgram (.ofPath "a.jsx") decoratedParameter,
      program.root.span = ⟨0, Text.byteLength program.source⟩ ∧
          program.root.isNested = true ∧ program.root.isInText program.source = true ∧
          isLaidOut program.root = true ∧
          (applyEdits program.source (planFrom program
            { Style.standard with arrowParensAlways := false } program.root .other).edits).dropped =
            [.replace ⟨21, 29⟩ [], .replace ⟨31, 31⟩ " => ".toList, .replace ⟨31, 40⟩ [],
              .replace ⟨41, 44⟩ []] := by
    decide +kernel
  exact ⟨program, parsed, whole, nested, inText, laidOut,
    { TransformOptions.standard with
      style := { Style.standard with arrowParensAlways := false } }, dropped_eq⟩

/-- A loop whose head declares a function that tests membership. -/
def loopWithTest : List Char :=
  "for (var f = function() { return a in b; };;) {}".toList

/--
The value that the function of the sample returns is moved into the head of the
loop, where `in` is no operator: the result cannot be read again.
-/
theorem loop_with_test_loses_its_function :
    ∃ output, Transform.functionToArrow.run .plain .standard loopWithTest = some output ∧
      output.text = "for (var f = () => a in b;;) {}".toList ∧
      parseProgram .plain output.text = none := by
  obtain ⟨output, isOutput, isText, unread⟩ :
      ∃ output ∈ Transform.functionToArrow.run .plain .standard loopWithTest,
        output.text = "for (var f = () => a in b;;) {}".toList ∧
        (parseProgram .plain output.text).isNone = true := by
    decide +kernel
  exact ⟨output, isOutput, isText, Option.isNone_iff_eq_none.1 unread⟩

end Arrow

end Codemod
