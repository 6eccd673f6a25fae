import Codemod.Proofs.Scope.Numbering
import Codemod.Proofs.Tree.Position

/-!
# What a survey has entered and what it expects

The span of a scope is that of the node entered last, unless a class is expected
at the depth at which the scope opens.  Along a walk the open scopes come back to
what they were (`stack_eq`), what is entered lies in the node that is walked
(`entered_eq_or`), and a class that is expected is forgotten or still expected
(`expected_eq_or`); it is still expected exactly if nothing that opens on the way
can be taken for its scope (`retains`).
-/

namespace Codemod

open Trace

/-- Whether a step only notes a declaration or a use. -/
def Step.isNote : Step → Bool
  | declare _ _ _ => true
  | reference _ _ _ => true
  | member _ _ _ => true
  | superCall _ => true
  | _ => false

/-- What a scope is and where it stands, the names it declares left aside. -/
def Scope.outline (scope : Scope) : ScopeKind × Span :=
  (scope.kind, scope.span)

namespace Survey

/-- Two surveys stand at the same place, whatever they have noted. -/
structure Agrees (survey other : Survey) : Prop where
  stack : other.stack = survey.stack
  entered : other.entered = survey.entered
  expected : other.expected = survey.expected
  outlines : other.table.scopes.map Scope.outline = survey.table.scopes.map Scope.outline

variable {survey middle after : Survey}

theorem Agrees.refl (survey : Survey) : survey.Agrees survey :=
  ⟨rfl, rfl, rfl, rfl⟩

theorem Agrees.trans (first : survey.Agrees middle) (second : middle.Agrees after) :
    survey.Agrees after where
  stack := second.stack.trans first.stack
  entered := second.entered.trans first.entered
  expected := second.expected.trans first.expected
  outlines := second.outlines.trans first.outlines

theorem agrees_declareIn (survey : Survey) (id : ScopeId) (name : String) (site : Site) :
    survey.Agrees (survey.declareIn id name site) where
  stack := rfl
  entered := rfl
  expected := rfl
  outlines := by
    refine List.ext_getElem? fun index => ?_
    rw [List.getElem?_map, List.getElem?_map]
    change ((survey.table.declare id name site).get? index).map _ = (survey.table.get? index).map _
    rw [ScopeTable.get?_declare, Option.map_map]
    congr 1
    funext scope
    rw [Function.comp_apply]
    split <;> rfl

theorem agrees_step {step : Step} (isNote : step.isNote = true) :
    survey.Agrees (survey.step step) := by
  cases step with
  | declare reach name site =>
    exact step_declare_induction reach name site (.refl survey) fun other id agrees =>
      agrees.trans (agrees_declareIn other id name site)
  | reference name span access => exact ⟨rfl, rfl, rfl, rfl⟩
  | member chain span access => exact ⟨rfl, rfl, rfl, rfl⟩
  | superCall span => exact ⟨rfl, rfl, rfl, rfl⟩
  | _ => cases isNote

theorem agrees_run {steps : List Step} (areNotes : ∀ step ∈ steps, step.isNote = true) :
    survey.Agrees (steps.foldl Survey.step survey) := by
  induction steps generalizing survey with
  | nil => exact .refl survey
  | cons step rest ih =>
    exact (agrees_step (areNotes step List.mem_cons_self)).trans
      (ih fun other member => areNotes other (List.mem_cons_of_mem _ member))

/-- A node that is no class only notes declarations and uses. -/
theorem isNote_notes {node : Node} (notClass : node.kind.isClass = false) (access : Access) :
    ∀ step ∈ node.notes access, step.isNote = true := by
  intro step member
  cases Node.isNotedBy_notes node access step member with
  | expectClass isClass =>
    rw [notClass] at isClass
    cases isClass
  | _ => rfl

theorem isNote_declareGiven {reach : Reach} {kind : DeclarationKind} {children : List Node} :
    ∀ step ∈ Trace.declareGiven reach kind children, step.isNote = true := by
  intro step member
  obtain ⟨entry, _, rfl⟩ := List.mem_map.1 member
  rfl

/-- What is entered and expected when a survey arrives at a node. -/
structure Arrives (node : Node) (survey after : Survey) : Prop where
  stack : after.stack = survey.stack
  entered : after.entered = if node.kind.isEntered then node.span else survey.entered
  expected : after.expected =
    if node.kind.isClass then some (survey.stack.length, node.span) else survey.expected
  outlines : after.table.scopes.map Scope.outline = survey.table.scopes.map Scope.outline

theorem entered_enterNode (survey : Survey) (kind : Kind) (span : Span) :
    (enterNode kind span).foldl Survey.step survey =
      { survey with entered := if kind.isEntered then span else survey.entered } := by
  rw [enterNode]
  split <;> rfl

theorem arrives_arrival (node : Node) (access : Access) (survey : Survey) :
    Arrives node survey ((node.arrival access).foldl Survey.step survey) := by
  rw [Node.arrival, List.foldl_append, entered_enterNode]
  cases isClass : node.kind.isClass with
  | false =>
    have noted : survey.Agrees ((node.notes access).foldl Survey.step survey) :=
      agrees_run (isNote_notes isClass access)
    exact ⟨noted.stack, by rw [noted.entered], by rw [noted.expected, isClass]; rfl,
      noted.outlines⟩
  | true =>
    obtain ⟨kind, span, children⟩ := node
    cases kind with
    | classDefinition isDeclaration =>
      have noted : survey.Agrees
          ((Trace.declareGiven .innermost .classDefinition children).foldl Survey.step survey) :=
        agrees_run isNote_declareGiven
      rw [Node.notes, List.foldl_append]
      refine ⟨noted.stack, rfl, ?_, noted.outlines⟩
      rw [if_pos isClass, ← noted.stack]
      rfl
    | _ => cases isClass

theorem expected_openScope (survey : Survey) (opening : Opening) :
    (survey.openScope opening).expected =
      if (survey.openedClass? opening).isSome then none else survey.expected := rfl

theorem expected_openScope_eq_or (survey : Survey) (opening : Opening) :
    (survey.openScope opening).expected = survey.expected ∨
      (survey.openScope opening).expected = none := by
  rw [expected_openScope]
  split
  · exact Or.inr rfl
  · exact Or.inl rfl

theorem openedKind_eq_block_iff (opening : Opening) :
    openedKind opening = .block ↔ (openedKind opening).holdsVariables = false := by
  cases opening with
  | function isArrow name shape => cases isArrow <;> simp [openedKind, ScopeKind.holdsVariables]
  | _ => simp [openedKind, ScopeKind.holdsVariables]

variable {opening : Opening} {span : Span}

/-- A block that opens where a class is expected is the scope of the class. -/
theorem openedClass?_of_expected (isBlock : openedKind opening = .block)
    (isExpected : survey.expected = some (survey.stack.length, span)) :
    survey.openedClass? opening = some span := by
  simp [openedClass?, isExpected, isBlock]

/-- A scope that is taken for that of a class is a block and opens where the class is expected. -/
theorem expected_of_openedClass? (isOpened : survey.openedClass? opening = some span) :
    openedKind opening = .block ∧ survey.expected = some (survey.stack.length, span) := by
  rw [openedClass?] at isOpened
  split at isOpened
  · next depth place isExpected =>
    rw [Option.ite_none_right_eq_some, Bool.and_eq_true, beq_iff_eq, beq_iff_eq] at isOpened
    obtain ⟨⟨isBlock, rfl⟩, isSpan⟩ := isOpened
    rw [isExpected]
    exact ⟨isBlock, congrArg (fun place => some (_, place)) (Option.some.inj isSpan)⟩
  · cases isOpened

/-- A class stays expected if no block opens where it is expected. -/
theorem expected_openScope_of_ne {depth : Nat} (isExpected : survey.expected = some (depth, span))
    (notHere : openedKind opening = .block → survey.stack.length ≠ depth) :
    (survey.openScope opening).expected = some (depth, span) := by
  have notTaken : survey.openedClass? opening = none := by
    refine Option.eq_none_iff_forall_ne_some.2 fun taken isTaken => ?_
    obtain ⟨isBlock, isHere⟩ := expected_of_openedClass? isTaken
    rw [isExpected, Option.some.injEq, Prod.mk.injEq] at isHere
    exact notHere isBlock isHere.1.symm
  rw [expected_openScope, notTaken]
  exact isExpected

end Survey

namespace Stretch

/-- The place of the node on which a stretch lies. -/
def place : Stretch → Place
  | node place => place
  | parts place _ _ _ => place

end Stretch

namespace Node

variable {root : Node} {stretch : Stretch} {survey after : Survey}

/-- After a walk the scopes are open that were open before. -/
theorem Walk.stack_eq (walk : root.Walk stretch survey after) : after.stack = survey.stack := by
  induction walk with
  | nothing => rfl
  | enter _ _ ih => exact ih
  | part _ _ _ _ _ ihHere ihRest => exact ihRest.trans ihHere
  | @plain _ node survey _ _ _ _ ih =>
    exact ih.trans (Survey.arrives_arrival node _ survey).stack
  | @scope _ node _ opening survey before inside _ _ _ _ _ _ _ _ ihHead
      ihWithin ihTail =>
      have arrived := ihHead.trans (Survey.arrives_arrival node _ survey).stack
      refine ihTail.trans ?_
      change inside.stack.tail = survey.stack
      rw [ihWithin, Survey.openScope_stack, List.tail_cons, arrived]

/-! ## What is entered -/

/-- A span lies in the node at a place. -/
def HoldsSpan (root : Node) (place : Place) (span : Span) : Prop :=
  ∃ node, root.at? place = some node ∧ node.span.contains span = true

variable {span : Span} {place : Place} {node : Node} {opening : Opening} {places : List Place}

theorem HoldsSpan.outwards (nested : root.isNested = true) {outer inner : Place}
    (holds : root.HoldsSpan inner span) (isBelow : outer <+: inner) :
    root.HoldsSpan outer span := by
  obtain ⟨below, isInner, inside⟩ := holds
  obtain ⟨rest, rfl⟩ := isBelow
  rw [at?_append, Option.bind_eq_some_iff] at isInner
  obtain ⟨node, isOuter, isRest⟩ := isInner
  exact ⟨node, isOuter, Span.contains_trans
    (contains_at? (isNested_at? nested isOuter) isRest) inside⟩

theorem IsEnteredAt.holdsSpan (nested : root.isNested = true)
    (isPlace : root.IsEnteredAt place span) : root.HoldsSpan place span := by
  obtain ⟨node, reached, rfl | ⟨part, isPart, rfl⟩⟩ := isPlace
  · exact ⟨node, reached, Span.contains_refl _⟩
  · obtain ⟨child, isChild, rfl⟩ := List.mem_map.1 isPart
    exact ⟨node, reached, contains_of_mem_children (isNested_at? nested reached) isChild⟩

theorem entered_arrival_eq_or (reached : root.at? place = some node) (access : Access)
    (survey : Survey) :
    ((node.arrival access).foldl Survey.step survey).entered = survey.entered ∨
      root.HoldsSpan place ((node.arrival access).foldl Survey.step survey).entered := by
  rw [(Survey.arrives_arrival node access survey).entered]
  split
  · exact Or.inr ⟨node, reached, Span.contains_refl _⟩
  · exact Or.inl rfl

/-- What is entered last after a walk was entered last before it or lies in the node walked. -/
theorem Walk.entered_eq_or (walk : root.Walk stretch survey after) (nested : root.isNested = true) :
    after.entered = survey.entered ∨ root.HoldsSpan stretch.place after.entered := by
  have step : ∀ {place : Place} {first second third : Survey},
      (second.entered = first.entered ∨ root.HoldsSpan place second.entered) →
      (third.entered = second.entered ∨ root.HoldsSpan place third.entered) →
      third.entered = first.entered ∨ root.HoldsSpan place third.entered := by
    rintro place first second third isSecond (isThird | holds)
    · rwa [isThird]
    · exact Or.inr holds
  induction walk with
  | nothing => exact Or.inl rfl
  | @enter place _ _ _ span survey _ isPlace _ ih =>
    have entered : (survey.step (.enter span)).entered = survey.entered ∨
        root.HoldsSpan place (survey.step (.enter span)).entered :=
      Or.inr (isPlace.holdsSpan nested)
    exact step entered ih
  | part _ _ _ _ _ ihHere ihRest =>
    refine step ?_ ihRest
    exact ihHere.imp_right fun holds =>
      holds.outwards nested (List.prefix_append _ _)
  | plain reached _ _ ih =>
    exact step (entered_arrival_eq_or reached _ _) ih
  | scope reached _ _ _ _ _ _ ihHead ihWithin ihTail =>
    have arrived := step (entered_arrival_eq_or reached _ _) ihHead
    exact step (step arrived ihWithin) ihTail

/-! ## What is expected -/

theorem opening_eq_block (isClass : node.kind.isClass = true)
    (isOpening : node.opening? = some opening) : opening = .block := by
  obtain ⟨kind, span, children⟩ := node
  cases kind with
  | classDefinition isDeclaration =>
    cases isOpening
    rfl
  | _ => cases isClass

theorem isClass_eq_false {kind : Kind} (noForm : kind.scopeForm? = none) :
    kind.isClass = false := by
  cases kind <;> first | rfl | cases noForm

/-- When the scope of a class has opened, no class is expected any more. -/
theorem expected_openScope_of_class {survey before : Survey} {count : Nat}
    (isClass : node.kind.isClass = true) (isOpening : node.opening? = some opening)
    (access : Access)
    (head : root.Walk (.parts place false 0 count) ((node.arrival access).foldl Survey.step survey)
      before)
    (forgets : before.expected = ((node.arrival access).foldl Survey.step survey).expected ∨
      before.expected = none) :
    (before.openScope opening).expected = none := by
  have arrives := Survey.arrives_arrival node access survey
  have arrived := arrives.expected
  rw [isClass, if_pos rfl, ← head.stack_eq.trans arrives.stack] at arrived
  rcases forgets with isExpected | isNone
  · rw [arrived] at isExpected
    have isBlock : Survey.openedKind opening = .block := by
      rw [opening_eq_block isClass isOpening]
      rfl
    rw [Survey.expected_openScope, Survey.openedClass?_of_expected isBlock isExpected]
    rfl
  · exact (Survey.expected_openScope_eq_or before opening).elim (·.trans isNone) id

/-- A class that is expected before a walk is expected after it, or nothing is. -/
theorem Walk.expected_eq_or (walk : root.Walk stretch survey after) :
    after.expected = survey.expected ∨ after.expected = none := by
  have step : ∀ {first second third : Survey},
      (second.expected = first.expected ∨ second.expected = none) →
      (third.expected = second.expected ∨ third.expected = none) →
      third.expected = first.expected ∨ third.expected = none := by
    rintro first second third isSecond (isThird | isNone)
    · rwa [isThird]
    · exact Or.inr isNone
  induction walk with
  | nothing => exact Or.inl rfl
  | enter _ _ ih => exact ih
  | part _ _ _ _ _ ihHere ihRest => exact step ihHere ihRest
  | @plain place node survey _ _ noForm _ ih =>
    have arrived := (Survey.arrives_arrival node (root.accessAt place) survey).expected
    rw [isClass_eq_false noForm] at arrived
    exact step (Or.inl arrived) ih
  | @scope place node _ opening survey before inside after _ _ isOpening _ head _ _
      ihHead ihWithin ihTail =>
      have arrives := Survey.arrives_arrival node (root.accessAt place) survey
      have arrived := arrives.expected
      have opened := Survey.expected_openScope_eq_or before opening
      have later : after.expected = (before.openScope opening).expected ∨ after.expected = none :=
        step ihWithin ihTail
      cases isClass : node.kind.isClass with
      | false =>
        rw [isClass] at arrived
        exact step (step (step (Or.inl arrived) ihHead) opened) later
      | true =>
        -- The scope of the class itself takes what the class made the survey expect.
        have forgotten := expected_openScope_of_class isClass isOpening _ head ihHead
        exact Or.inr (later.elim (·.trans forgotten) id)

/--
None of the nodes is a class, and none opens a block where that many scopes are open.
-/
def AreQuiet (root : Node) (depth : Nat) (places : List Place) : Prop :=
  ∀ place ∈ places, ∀ node, root.at? place = some node → node.kind.isClass = false ∧
    ((root.scopesAt place).length = depth → node.kind.holdsVariables = true)

theorem areQuiet_append {depth : Nat} {others : List Place} :
    root.AreQuiet depth (places ++ others) ↔
      root.AreQuiet depth places ∧ root.AreQuiet depth others :=
  List.forall_mem_append

/-- A class stays expected exactly if nothing opens that can be taken for its scope. -/
structure Retains (root : Node) (places : List Place) (survey after : Survey) : Prop where
  forgets : survey.expected = none → after.expected = none
  keeps : ∀ {depth : Nat} {span : Span}, survey.expected = some (depth, span) →
    after.expected = some (depth, span) ∧ root.AreQuiet depth places ∨
      after.expected = none ∧ ¬ root.AreQuiet depth places

theorem Retains.of_eq {middle : Survey} (retains : root.Retains places middle after)
    (same : middle.expected = survey.expected) :
    root.Retains places survey after :=
  ⟨retains.forgets ∘ same.trans, fun isExpected => retains.keeps (same.trans isExpected)⟩

theorem Retains.trans {others : List Place} {middle : Survey}
    (first : root.Retains places survey middle) (second : root.Retains others middle after) :
    root.Retains (places ++ others) survey after where
  forgets := second.forgets ∘ first.forgets
  keeps := by
    intro depth span isExpected
    rw [areQuiet_append]
    rcases first.keeps isExpected with ⟨isKept, isQuiet⟩ | ⟨isNone, notQuiet⟩
    · exact (second.keeps isKept).imp (And.imp_right (⟨isQuiet, ·⟩))
        (And.imp_right fun notQuiet both => notQuiet both.2)
    · exact Or.inr ⟨second.forgets isNone, fun both => notQuiet both.1⟩

theorem Retains.expected_eq (retains : root.Retains places survey after) {depth : Nat}
    (isQuiet : root.AreQuiet depth places) (isExpected : survey.expected = some (depth, span)) :
    after.expected = some (depth, span) :=
  (retains.keeps isExpected).elim And.left fun lost => absurd isQuiet lost.2

/-- The scope of a node that is no class is taken for that of a class where one is expected. -/
theorem retains_openScope (reached : root.at? place = some node)
    (isOpening : node.opening? = some opening) (notClass : node.kind.isClass = false)
    (isDepth : survey.stack.length = (root.scopesAt place).length) :
    root.Retains [place] survey (survey.openScope opening) where
  forgets := fun isNone => (Survey.expected_openScope_eq_or survey opening).elim (·.trans isNone) id
  keeps := by
    intro depth span isExpected
    have isKind := Survey.holdsVariables_of_opening? isOpening
    by_cases isTaken : Survey.openedKind opening = .block ∧ survey.stack.length = depth
    · obtain ⟨isBlock, rfl⟩ := isTaken
      refine Or.inr ⟨?_, fun quiet => ?_⟩
      · rw [Survey.expected_openScope, Survey.openedClass?_of_expected isBlock isExpected]
        rfl
      · rw [isBlock, (quiet place List.mem_cons_self node reached).2 isDepth.symm] at isKind
        cases isKind
    · refine Or.inl ⟨Survey.expected_openScope_of_ne isExpected fun isBlock isHere =>
        isTaken ⟨isBlock, isHere⟩, fun other isPlace opener isOpener => ?_⟩
      obtain rfl := List.mem_singleton.1 isPlace
      obtain rfl := Option.some.inj (reached.symm.trans isOpener)
      refine ⟨notClass, fun isHere => ?_⟩
      rw [← isKind, ← Bool.not_eq_false]
      intro isPlain
      exact isTaken ⟨(Survey.openedKind_eq_block_iff opening).2 isPlain, isDepth.trans isHere⟩

/-- Along a walk a class stays expected until something can be taken for its scope. -/
theorem Walk.retains (walk : root.Walk stretch survey after)
    (isDepth : survey.stack.length = (stretch.frames root).length) :
    root.Retains (stretch.openings root) survey after := by
  induction walk with
  | nothing =>
    rw [Stretch.openings_nothing]
    exact ⟨id, fun isExpected => Or.inl ⟨isExpected, List.forall_mem_nil _⟩⟩
  | enter _ _ ih => exact (ih isDepth).of_eq rfl
  | @part _ _ _ count _ _ _ _ _ reached isChild stands here _ ihHere ihRest =>
    rw [Stretch.openings_succ reached isChild]
    have sameFrames := Stretch.frames_part count reached isChild stands
    exact (ihHere (isDepth.trans (congrArg List.length sameFrames.symm))).trans
      (ihRest ((congrArg List.length here.stack_eq).trans isDepth))
  | @plain place node survey _ reached noForm _ ih =>
    have arrives := Survey.arrives_arrival node (root.accessAt place) survey
    have arrived := arrives.expected
    rw [isClass_eq_false noForm] at arrived
    rw [Stretch.openings_plain reached noForm]
    exact (ih ((congrArg List.length arrives.stack).trans isDepth)).of_eq arrived
  | @scope place node form opening survey before inside _ reached isForm isOpening _ head
      within _ ihHead ihWithin ihTail =>
      have arrives := Survey.arrives_arrival node (root.accessAt place) survey
      have beforeDepth : before.stack.length = (root.scopesAt place).length := by
        rw [head.stack_eq, arrives.stack]
        exact isDepth
      have openedDepth : (before.openScope opening).stack.length =
          ((Stretch.parts place true (form.start node.children)
            (form.stop node.children - form.start node.children)).frames root).length := by
        rw [Survey.openScope_stack, List.length_cons, beforeDepth]
        rfl
      have closedDepth : (inside.step .closeScope).stack.length = (root.scopesAt place).length := by
        change inside.stack.tail.length = _
        rw [within.stack_eq, Survey.openScope_stack, List.tail_cons, beforeDepth]
      have later := (ihWithin openedDepth).trans ((ihTail closedDepth).of_eq rfl)
      rw [Stretch.openings_scope reached isForm]
      cases isClass : node.kind.isClass with
      | true =>
        -- The scope of the class itself takes what the class made the survey expect.
        have isNone := later.forgets
          (expected_openScope_of_class isClass isOpening _ head head.expected_eq_or)
        refine ⟨fun _ => isNone, fun _ => Or.inr ⟨isNone, fun quiet => ?_⟩⟩
        rw [(quiet place (by simp) node reached).1] at isClass
        cases isClass
      | false =>
        have arrived := arrives.expected
        rw [isClass] at arrived
        have opened := (ihHead ((congrArg List.length arrives.stack).trans isDepth)).trans
          (retains_openScope reached isOpening isClass beforeDepth)
        rw [← List.singleton_append, ← List.append_assoc]
        exact (opened.trans later).of_eq arrived

end Node

end Codemod
