import Codemod.Proofs.Scope.Waiting

/-!
# The outlines of scopes

Surveys follow what the tree says (`outlines_ofProgram`): a scope is taken for
that of a class where a class waits for it, the span of a scope that opens at once
is that of its node, and the span of any scope lies in the nodes around it whose
scopes open at once.
-/

namespace Codemod

open Trace ScopeTable

/-! ## Surveys that expect a class -/

namespace Survey

/-- A class is expected at the depth at which the survey stands. -/
def IsAwaiting (survey : Survey) : Prop :=
  ∃ span, survey.expected = some (survey.stack.length, span)

/-- A scope is taken for that of a class exactly if it is a block and a class is expected. -/
theorem isSome_openedClass?_iff {survey : Survey} {opening : Opening} :
    (survey.openedClass? opening).isSome = true ↔
      openedKind opening = .block ∧ survey.IsAwaiting := by
  constructor
  · intro isTaken
    obtain ⟨span, isSpan⟩ := Option.isSome_iff_exists.1 isTaken
    obtain ⟨isBlock, isExpected⟩ := expected_of_openedClass? isSpan
    exact ⟨isBlock, span, isExpected⟩
  · rintro ⟨isBlock, span, isExpected⟩
    rw [openedClass?_of_expected isBlock isExpected]
    rfl

end Survey

namespace Node

variable {root : Node} {stretch : Stretch} {survey after : Survey}

/-- A class is expected after a walk if it was before and nothing on the way was taken for it. -/
theorem Walk.isAwaiting_iff (walk : root.Walk stretch survey after)
    (isDepth : survey.stack.length = (stretch.frames root).length) :
    after.IsAwaiting ↔
      survey.IsAwaiting ∧ root.AreQuiet survey.stack.length (stretch.openings root) := by
  rw [Survey.IsAwaiting, Survey.IsAwaiting, walk.stack_eq]
  have retains := walk.retains isDepth
  constructor
  · rintro ⟨span, isExpected⟩
    cases wasExpected : survey.expected with
    | none =>
      rw [retains.forgets wasExpected] at isExpected
      cases isExpected
    | some expected =>
      obtain ⟨depth, place⟩ := expected
      rcases retains.keeps wasExpected with ⟨isKept, isQuiet⟩ | ⟨isNone, _⟩
      · rw [isKept] at isExpected
        cases isExpected
        exact ⟨⟨span, rfl⟩, isQuiet⟩
      · rw [isNone] at isExpected
        cases isExpected
  · rintro ⟨⟨span, isExpected⟩, isQuiet⟩
    exact ⟨span, retains.expected_eq isQuiet isExpected⟩

end Node

namespace Stretch

/-- How many nodes a stretch goes over, not counting those inside them. -/
def count : Stretch → Nat
  | node _ => 1
  | parts _ _ _ count => count

/-- Whether a class waits for its scope when a stretch begins. -/
def waits (root : Node) : Stretch → Bool
  | node place => root.waitsAt place
  | parts place isInside first _ =>
    !isInside && (root.at? place).any fun node => node.awaitsBefore (root.waitsAt place) first

theorem isPrefix_of_mem_frames {root : Node} {stretch : Stretch} {outer : Place}
    (isOpen : outer ∈ stretch.frames root) : outer <+: stretch.place := by
  cases stretch with
  | node place => exact Node.isPrefix_of_mem_scopesAt isOpen
  | parts place isInside first count =>
    rcases List.mem_append.1 isOpen with isOwn | isOuter
    · split at isOwn
      · rw [List.mem_singleton.1 isOwn]
        exact List.prefix_refl _
      · cases isOwn
    · exact Node.isPrefix_of_mem_scopesAt isOuter

end Stretch

namespace Survey

/-- The node at a place holds what was entered last and a class that is expected here. -/
structure LiesIn (survey : Survey) (root : Node) (place : Place) : Prop where
  entered : root.HoldsSpan place survey.entered
  expected : ∀ {span : Span}, survey.expected = some (survey.stack.length, span) →
    root.HoldsSpan place span

/--
A survey is about to go along a stretch: as many scopes are open as there are
nodes around it that open one.  It expects a class at this depth exactly if one
waits here, and none further inside.  It lies in the nodes around it whose scopes
opened at once, if no node of the tree sticks out of the one around it.
-/
structure Poised (survey : Survey) (root : Node) (stretch : Stretch) : Prop where
  depth : survey.stack.length = (stretch.frames root).length
  shallow : ∀ {depth : Nat} {span : Span}, survey.expected = some (depth, span) →
    depth ≤ survey.stack.length
  awaits : stretch.count ≠ 0 → (survey.IsAwaiting ↔ stretch.waits root = true)
  inside : root.isNested = true → ∀ outer ∈ stretch.frames root, root.opensAtOnce outer = true →
    survey.LiesIn root outer

variable {survey middle before after : Survey} {root node child : Node} {place : Place}
  {isInside : Bool} {first count : Nat} {stretch other : Stretch} {form : ScopeForm}
  {opening : Opening}

/-- A survey that has moved inside the node of a stretch is about to go along another one. -/
theorem Poised.moved (poised : survey.Poised root stretch)
    (frames : other.frames root = stretch.frames root) (stack : after.stack = survey.stack)
    (entered : root.isNested = true →
      after.entered = survey.entered ∨ root.HoldsSpan stretch.place after.entered)
    (expected : after.expected = survey.expected ∨ after.expected = none)
    (awaits : other.count ≠ 0 → (after.IsAwaiting ↔ other.waits root = true)) :
    after.Poised root other := by
  have wasExpected : ∀ {depth : Nat} {span : Span}, after.expected = some (depth, span) →
      survey.expected = some (depth, span) := by
    intro depth span isExpected
    rcases expected with isSame | isNone
    · exact isSame.symm.trans isExpected
    · rw [isNone] at isExpected
      cases isExpected
  refine ⟨?_, fun isExpected => ?_, awaits, fun nested outer isOpen atOnce => ?_⟩
  · rw [stack, frames, poised.depth]
  · rw [stack]
    exact poised.shallow (wasExpected isExpected)
  · rw [frames] at isOpen
    have lies := poised.inside nested outer isOpen atOnce
    refine ⟨?_, fun isExpected => lies.expected (stack ▸ wasExpected isExpected)⟩
    rcases entered nested with isSame | holds
    · rw [isSame]
      exact lies.entered
    · exact holds.outwards nested (Stretch.isPrefix_of_mem_frames isOpen)

theorem Poised.part (poised : survey.Poised root (.parts place isInside first (count + 1)))
    (reached : root.at? place = some node) (isChild : node.children[first]? = some child)
    (stands : node.holdsInScope first = isInside) :
    survey.Poised root (.node (place ++ [first])) := by
  refine poised.moved (Stretch.frames_part count reached isChild stands) rfl
    (fun _ => Or.inl rfl) (Or.inl rfl) fun _ => ?_
  rw [poised.awaits (Nat.succ_ne_zero count), Stretch.waits, Stretch.waits,
    Node.waitsAt_part reached isChild, stands, reached, Option.any_some]

theorem Poised.next (poised : survey.Poised root (.parts place isInside first (count + 1)))
    (reached : root.at? place = some node) (isChild : node.children[first]? = some child)
    (stands : node.holdsInScope first = isInside)
    (here : root.Walk (.node (place ++ [first])) survey middle) :
    middle.Poised root (.parts place isInside (first + 1) count) := by
  refine poised.moved rfl here.stack_eq (fun nested => ?_) here.expected_eq_or fun _ => ?_
  · exact (here.entered_eq_or nested).imp_right fun holds =>
      holds.outwards nested (List.prefix_append _ _)
  · have own := poised.part reached isChild stands
    have isDepth : survey.stack.length = (root.scopesAt (place ++ [first])).length := own.depth
    rw [here.isAwaiting_iff own.depth, poised.awaits (Nat.succ_ne_zero count), isDepth,
      Node.areQuiet_node_iff (Node.at?_part reached isChild), Stretch.waits, Stretch.waits,
      reached, Option.any_some, Option.any_some]
    cases isInside with
    | true => simp
    | false => simp [Node.awaitsBefore_succ _ isChild stands]

/-- On arrival at a node its parts outside its scope are next. -/
theorem Poised.arrived (poised : survey.Poised root (.node place))
    (reached : root.at? place = some node) (access : Access) (count : Nat) :
    ((node.arrival access).foldl Survey.step survey).Poised root (.parts place false 0 count) := by
  have arrives := arrives_arrival node access survey
  have own := poised.awaits Nat.one_ne_zero
  refine ⟨(congrArg List.length arrives.stack).trans poised.depth, fun isExpected => ?_,
    fun _ => ?_, fun nested outer isOpen atOnce => ?_⟩
  · rw [arrives.stack]
    rw [arrives.expected] at isExpected
    split at isExpected
    · cases isExpected
      exact Nat.le_refl _
    · exact poised.shallow isExpected
  · rw [IsAwaiting, arrives.stack, arrives.expected, Stretch.waits, reached, Option.any_some,
      Node.awaitsBefore_zero]
    cases node.kind.isClass with
    | true => simp
    | false => simpa [Stretch.waits, IsAwaiting] using own
  · have lies := poised.inside nested outer isOpen atOnce
    have holds : root.HoldsSpan outer node.span :=
      Node.HoldsSpan.outwards nested ⟨node, reached, Span.contains_refl _⟩
        (Stretch.isPrefix_of_mem_frames isOpen)
    refine ⟨?_, fun isExpected => ?_⟩
    · rw [arrives.entered]
      split
      · exact holds
      · exact lies.entered
    · rw [arrives.expected, arrives.stack] at isExpected
      split at isExpected
      · cases isExpected
        exact holds
      · exact lies.expected isExpected

/-- When the scope of a node is about to open, a class waits that was not disturbed before it. -/
theorem Poised.isAwaiting_before (poised : survey.Poised root (.node place))
    (reached : root.at? place = some node) (isForm : node.kind.scopeForm? = some form)
    (access : Access)
    (head : root.Walk (.parts place false 0 (form.start node.children))
      ((node.arrival access).foldl Survey.step survey) before) :
    before.IsAwaiting ↔ (node.kind.isClass || root.waitsAt place) = true ∧
      ∀ part ∈ node.head, part.disturbsClass = false := by
  have arrived := poised.arrived reached access (form.start node.children)
  have isDepth : ((node.arrival access).foldl Survey.step survey).stack.length =
      (root.scopesAt place).length := arrived.depth
  rw [head.isAwaiting_iff arrived.depth, isDepth, Node.areQuiet_head_iff reached isForm,
    (poised.arrived reached access 1).awaits Nat.one_ne_zero, Stretch.waits, reached,
    Option.any_some, Node.awaitsBefore_zero, Bool.or_comm]
  rfl

/-- After the parts before a scope no other part is next outside it. -/
theorem Poised.walked (poised : survey.Poised root (.parts place isInside first count))
    (walk : root.Walk (.parts place isInside first count) survey after) :
    after.Poised root (.parts place isInside first 0) :=
  poised.moved rfl walk.stack_eq walk.entered_eq_or walk.expected_eq_or (absurd rfl)

/-- Inside a scope that has just opened no class is expected. -/
theorem Poised.openScope (poised : before.Poised root (.parts place false 0 0))
    (entered : root.isNested = true → root.opensAtOnce place = true →
      root.HoldsSpan place before.entered) :
    (before.openScope opening).Poised root (.parts place true first count) := by
  have isSmall : ∀ {depth : Nat} {span : Span},
      (before.openScope opening).expected = some (depth, span) → depth ≤ before.stack.length := by
    intro depth span isExpected
    rcases expected_openScope_eq_or before opening with isSame | isNone
    · exact poised.shallow (isSame.symm.trans isExpected)
    · rw [isNone] at isExpected
      cases isExpected
  have notHere : ∀ {span : Span}, (before.openScope opening).expected ≠
      some ((before.openScope opening).stack.length, span) :=
    fun isExpected => Nat.not_succ_le_self _ (isSmall isExpected)
  refine ⟨?_, fun isExpected => Nat.le_succ_of_le (isSmall isExpected), fun _ => ?_,
    fun nested outer isOpen atOnce => ⟨?_, fun isExpected => absurd isExpected notHere⟩⟩
  · rw [openScope_stack, List.length_cons, poised.depth]
    rfl
  · exact iff_of_false (fun ⟨_, isExpected⟩ => notHere isExpected) Bool.false_ne_true
  · rcases List.mem_cons.1 isOpen with rfl | isOuter
    · exact entered nested atOnce
    · exact (poised.inside nested outer isOuter atOnce).entered

/-- After a block has opened and closed no class waits at its depth. -/
theorem Poised.closeScope (poised : before.Poised root (.parts place false 0 0))
    (reached : root.at? place = some node) (isForm : node.kind.scopeForm? = some form)
    (isOpening : node.opening? = some opening)
    (within : root.Walk (.parts place true (form.start node.children)
      (form.stop node.children - form.start node.children)) (before.openScope opening) after) :
    (after.step .closeScope).Poised root (.parts place false (form.stop node.children)
      (node.children.length - form.stop node.children)) := by
  have stack : after.stack.tail = before.stack := by
    rw [within.stack_eq, openScope_stack, List.tail_cons]
  have expected : after.expected = before.expected ∨ after.expected = none := by
    rcases within.expected_eq_or with isSame | isNone
    · exact (expected_openScope_eq_or before opening).imp isSame.trans isSame.trans
    · exact Or.inr isNone
  refine poised.moved rfl stack within.entered_eq_or expected fun notEmpty => ?_
  have isShort : form.stop node.children < node.children.length := Nat.lt_of_sub_ne_zero notEmpty
  have isBlock : openedKind opening = .block := by
    rw [Node.opening_eq_block_of_tail isForm isShort isOpening]
    rfl
  rw [Stretch.waits, reached, Option.any_some, Node.awaitsBefore_stop _ isForm isShort]
  refine iff_of_false ?_ Bool.false_ne_true
  rintro ⟨span, isExpected⟩
  change after.expected = some (after.stack.tail.length, span) at isExpected
  rw [stack] at isExpected
  -- The block would have been taken for the scope of a class that waited before it.
  have opened : (before.openScope opening).expected = some (before.stack.length, span) := by
    rcases within.expected_eq_or with isSame | isNone
    · exact isSame.symm.trans isExpected
    · rw [isNone] at isExpected
      cases isExpected
  have wasExpected : before.expected = some (before.stack.length, span) := by
    rcases expected with isSame | isNone
    · exact isSame.symm.trans isExpected
    · rw [isNone] at isExpected
      cases isExpected
  rw [expected_openScope, openedClass?_of_expected isBlock wasExpected] at opened
  cases opened

end Survey

/-! ## Scopes that open -/

namespace Node

/-- What the scope of the node at a place is, and which span it may have. -/
structure OutlineAt (root : Node) (place : Place) (outline : ScopeKind × Span) : Prop where
  kind : ∀ {node : Node} {opening : Opening}, root.at? place = some node →
    node.opening? = some opening → outline.1 =
      if root.takesClass place then .classDefinition else Survey.openedKind opening
  own : ∀ {node : Node}, root.at? place = some node → root.opensAtOnce place = true →
    outline.2 = node.span
  inside : root.isNested = true → ∀ outer, root.innermost? place = some outer →
    root.opensAtOnce outer = true → root.HoldsSpan outer outline.2

variable {root node : Node} {place : Place} {form : ScopeForm} {opening : Opening}
  {survey before : Survey}

theorem agrees_references (parts : List Node) (areReferences : ∀ part ∈ parts,
      part.kind.isReference = true) (survey : Survey) :
    survey.Agrees ((readAll (Node.parts parts)).foldl Survey.step survey) := by
  refine Survey.agrees_run fun step member => ?_
  obtain ⟨part, isPart, isStep⟩ := List.mem_flatMap.1 member
  obtain ⟨⟨kind, span, children⟩, isIn, rfl⟩ := List.mem_map.1 isPart
  have isReference := areReferences _ isIn
  cases kind with
  | reference name =>
    change step ∈ (mk (.reference name) span children).trace .read at isStep
    rw [trace_reference] at isStep
    rw [List.mem_singleton.1 isStep]
    rfl
  | _ => cases isReference

theorem isEntered_of_isClass {kind : Kind} (isClass : kind.isClass = true) :
    kind.isEntered = true := by
  cases kind <;> first | rfl | cases isClass

section

variable (reached : root.at? place = some node) (isForm : node.kind.scopeForm? = some form)
    (isOpening : node.opening? = some opening) (access : Access)
    (poised : survey.Poised root (.node place))
    (head : root.Walk (.parts place false 0 (form.start node.children))
      ((node.arrival access).foldl Survey.step survey) before)
include reached head

/-- Before the scope of a node opens at once, what was entered last lies in the node. -/
theorem holdsSpan_before (nested : root.isNested = true) (atOnce : root.opensAtOnce place = true) :
    root.HoldsSpan place before.entered := by
  have isEntered : node.kind.isEntered = true := by
    cases isClass : node.kind.isClass with
    | true => exact isEntered_of_isClass isClass
    | false => exact (takesClass_of_opensAtOnce reached isClass atOnce).1
  rcases head.entered_eq_or nested with isSame | holds
  · rw [isSame, (Survey.arrives_arrival node access survey).entered, if_pos isEntered]
    exact ⟨node, reached, Span.contains_refl _⟩
  · exact holds

include isForm isOpening poised

/-- A scope is taken for that of a class exactly if a class waits for it. -/
theorem takesClass_iff :
    root.takesClass place = true ↔ (before.openedClass? opening).isSome = true := by
  rw [takesClass, reached, Option.any_some, Survey.isSome_openedClass?_iff,
    poised.isAwaiting_before reached isForm access head, Survey.openedKind_eq_block_iff,
    Survey.holdsVariables_of_opening? isOpening]
  simp [and_assoc]

/-- A scope that opens at once gets the span of its node. -/
theorem openedScope_span
    (isBefore : before = (readAll (parts (node.children.take (form.start node.children)))).foldl
      Survey.step ((node.arrival access).foldl Survey.step survey))
    (atOnce : root.opensAtOnce place = true) : (before.openedScope opening).span = node.span := by
  have arrives := Survey.arrives_arrival node access survey
  have isTaken := takesClass_iff reached isForm isOpening access poised head
  change (before.openedClass? opening).getD before.entered = node.span
  cases isClass : node.kind.isClass with
  | true =>
    have arrived := arrives.expected
    rw [if_pos isClass] at arrived
    rw [opensAtOnce_of_isClass reached isClass, isTaken] at atOnce
    obtain ⟨span, isSpan⟩ := Option.isSome_iff_exists.1 atOnce
    have isExpected := (Survey.expected_of_openedClass? isSpan).2
    rw [isSpan, Option.getD_some]
    rcases head.expected_eq_or with isSame | isNone
    · rw [isSame, arrived, Option.some.injEq, Prod.mk.injEq] at isExpected
      exact isExpected.2.symm
    · rw [isNone] at isExpected
      cases isExpected
  | false =>
    obtain ⟨isEntered, areReferences, notTaken⟩ :=
      takesClass_of_opensAtOnce reached isClass atOnce
    rw [head_eq isForm] at areReferences
    have noted : Survey.Agrees _ before := isBefore ▸ agrees_references _ areReferences _
    rw [← Bool.not_eq_true, isTaken, Bool.not_eq_true, Option.isSome_eq_false_iff,
      Option.isNone_iff_eq_none] at notTaken
    rw [notTaken, Option.getD_none, noted.entered, arrives.entered, if_pos isEntered]

/-- The outline of a scope that opens. -/
theorem outlineAt_openedScope
    (isBefore : before = (readAll (parts (node.children.take (form.start node.children)))).foldl
      Survey.step ((node.arrival access).foldl Survey.step survey)) :
    root.OutlineAt place (before.openedScope opening).outline := by
  have isTaken := takesClass_iff reached isForm isOpening access poised head
  refine ⟨fun isNode isOpened => ?_, fun isNode atOnce => ?_, fun nested outer isOuter atOnce => ?_⟩
  · rw [reached, Option.some.injEq] at isNode
    subst isNode
    rw [isOpening, Option.some.injEq] at isOpened
    subst isOpened
    change (if (before.openedClass? opening).isSome then _ else _) = _
    exact if_congr isTaken.symm rfl rfl
  · rw [reached, Option.some.injEq] at isNode
    exact isNode ▸ openedScope_span reached isForm isOpening access poised head isBefore atOnce
  · have lies := ((poised.arrived reached access _).walked head).inside nested outer
      (List.mem_of_head? isOuter) atOnce
    change root.HoldsSpan outer ((before.openedClass? opening).getD before.entered)
    cases isClass : before.openedClass? opening with
    | none => exact lies.entered
    | some span => exact lies.expected (Survey.expected_of_openedClass? isClass).2

end

theorem outlines_openScope (survey : Survey) (opening : Opening) :
    (survey.openScope opening).table.scopes.map Scope.outline =
      survey.table.scopes.map Scope.outline ++ [(survey.openedScope opening).outline] := by
  rw [Survey.openScope_table]
  exact List.map_append

/-- The scopes that open along a walk have the outlines that the tree gives them. -/
theorem Walk.outlines {stretch : Stretch} {survey after : Survey}
    (walk : root.Walk stretch survey after) (poised : survey.Poised root stretch) :
    ∃ new, after.table.scopes.map Scope.outline = survey.table.scopes.map Scope.outline ++ new ∧
      List.Forall₂ root.OutlineAt (stretch.openings root) new := by
  induction walk with
  | nothing =>
    rw [Stretch.openings_nothing]
    exact ⟨[], (List.append_nil _).symm, .nil⟩
  | enter isPlace _ ih =>
    exact ih (poised.moved rfl rfl (fun nested => Or.inr (isPlace.holdsSpan nested)) (Or.inl rfl)
      poised.awaits)
  | part reached isChild stands here _ ihHere ihRest =>
    obtain ⟨new, isNew, areNew⟩ := ihHere (poised.part reached isChild stands)
    obtain ⟨more, isMore, areMore⟩ := ihRest (poised.next reached isChild stands here)
    rw [Stretch.openings_succ reached isChild]
    exact ⟨new ++ more, by rw [isMore, isNew, List.append_assoc], List.rel_append areNew areMore⟩
  | @plain _ node survey _ reached noForm _ ih =>
    rw [Stretch.openings_plain reached noForm,
      ← (Survey.arrives_arrival node _ survey).outlines]
    exact ih (poised.arrived reached _ _)
  | @scope place node form opening survey before inside _ reached isForm isOpening isBefore head
      within _ ihHead ihWithin ihTail =>
      have arrives := Survey.arrives_arrival node (root.accessAt place) survey
      have arrived := poised.arrived reached (root.accessAt place) (form.start node.children)
      have opens := arrived.walked head
      have entered := holdsSpan_before reached _ head
      obtain ⟨new, isNew, areNew⟩ := ihHead arrived
      obtain ⟨more, isMore, areMore⟩ := ihWithin (opens.openScope entered)
      obtain ⟨last, isLast, areLast⟩ := ihTail (opens.closeScope reached isForm isOpening within)
      have own := outlineAt_openedScope reached isForm isOpening _ poised head isBefore
      rw [Stretch.openings_scope reached isForm]
      refine ⟨new ++ _ :: (more ++ last), ?_,
        List.rel_append areNew (.cons own (List.rel_append areMore areLast))⟩
      rw [isLast]
      change inside.table.scopes.map Scope.outline ++ last = _
      rw [isMore, outlines_openScope, isNew, arrives.outlines]
      simp

end Node

/-! ## Whole trees -/

namespace ScopeTable

variable {root : Node} {place : Place} {id : ScopeId} {scope : Scope}

theorem poised_begun (span : Span) (children : List Node) :
    (Survey.begun span).Poised (.mk .program span children) (.parts [] true 0 children.length) where
  depth := rfl
  shallow := by
    intro depth other isExpected
    cases isExpected
  awaits := by
    intro _
    refine iff_of_false ?_ Bool.false_ne_true
    rintro ⟨other, isExpected⟩
    cases isExpected
  inside := by
    intro _ outer isOpen _
    have isRoot : outer = [] := by simpa [Stretch.frames, Node.scopesAt] using isOpen
    rw [isRoot]
    refine ⟨⟨_, Node.at?_nil _, Span.contains_refl span⟩, fun isExpected => ?_⟩
    cases isExpected

/-- The outlines of the scopes of a table are those of the nodes that open them. -/
theorem outlines_ofProgram (isText : root.kind = .program) (shaped : root.isWellShaped = true) :
    List.Forall₂ root.OutlineAt root.openings ((ofProgram root).scopes.map Scope.outline) := by
  obtain ⟨kind, span, children⟩ := root
  obtain rfl : kind = .program := isText
  obtain ⟨new, isNew, areNew⟩ := (Survey.walk_begun shaped).outlines (poised_begun span children)
  have own : (Node.mk .program span children).OutlineAt [] (.text, span) := by
    refine ⟨fun isNode isOpening => ?_, fun isNode _ => ?_, fun _ outer isOuter => ?_⟩
    · cases isNode
      cases isOpening
      rfl
    · cases isNode
      rfl
    · cases isOuter
  rw [ofProgram_mk, isNew, Survey.openings_program]
  exact .cons own areNew

theorem outlineAt_ofProgram (isText : root.kind = .program) (shaped : root.isWellShaped = true)
    (isPlace : root.openings[id]? = some place) (found : (ofProgram root).get? id = some scope) :
    root.OutlineAt place scope.outline := by
  have isOutline : ((ofProgram root).scopes.map Scope.outline)[id]? = some scope.outline := by
    rw [List.getElem?_map]
    exact congrArg (Option.map Scope.outline) found
  refine (List.forall₂_iff_zip.1 (outlines_ofProgram isText shaped)).2 ?_
  exact List.mem_of_getElem? (List.getElem?_zip_eq_some.2 ⟨isPlace, isOutline⟩)

end ScopeTable

end Codemod
