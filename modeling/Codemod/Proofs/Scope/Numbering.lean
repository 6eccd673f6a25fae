import Codemod.Proofs.Scope.Walk

/-!
# The numbers of scopes

A table numbers its scopes in the order in which they open, and `Node.openings`
lists the nodes that open them in that order.  A survey on its way through a tree
therefore knows where it is: its open scopes are those of the nodes around it
(`Tracks`), and the scopes still to come are those of the nodes not yet reached.
-/

namespace Codemod

open Trace ScopeTable

namespace Stretch

/-- The places of the scopes that are open along a stretch, innermost first. -/
def frames (root : Node) : Stretch → List Place
  | node place => root.scopesAt place
  | parts place isInside _ _ => (if isInside then [place] else []) ++ root.scopesAt place

/-- The places of the nodes that open scopes along a stretch. -/
def openings (root : Node) : Stretch → List Place
  | node place =>
    (root.at? place).elim [] fun node => node.openings.map (place ++ ·)
  | parts place _ first count =>
    (root.at? place).elim [] fun node =>
      (Node.partOpenings first ((node.children.drop first).take count)).map (place ++ ·)

end Stretch

/-- A scope of a table is the one that the node at a place opens. -/
structure Scope.IsAt (scope : Scope) (root : Node) (place : Place) : Prop where
  parent : (scope.parent.bind fun id => root.openings[id]?) = root.innermost? place
  holds : ∀ node, root.at? place = some node →
    scope.kind.holdsVariables = node.kind.holdsVariables

namespace Survey

/-- A survey stands inside the scopes of the given nodes, and others are still to open. -/
structure Tracks (survey : Survey) (root : Node) (frames rest : List Place) : Prop where
  sound : survey.Sound
  stack : (survey.stack.map fun id => root.openings[id]?) = frames.map some
  inside : survey.table.scopes.length ≤ root.openings.length
  rest : root.openings.drop survey.table.scopes.length = rest
  scope : ∀ {id : ScopeId} {place : Place}, id < survey.table.scopes.length →
    root.openings[id]? = some place →
    ∃ scope, survey.table.get? id = some scope ∧ scope.IsAt root place

variable {survey : Survey} {root node : Node} {place : Place} {frames rest : List Place}

theorem length_step_of_plain {step : Step} (plain : step.isPlain = true) :
    (survey.step step).table.scopes.length = survey.table.scopes.length := by
  cases step with
  | openScope opening => cases plain
  | closeScope => cases plain
  | declare reach name site =>
    exact step_declare_induction reach name site rfl fun _ _ => (length_declare _ _ _).trans
  | _ => rfl

/-- The first of the open scopes is that of the first of the nodes. -/
theorem head?_bind {stack : List ScopeId} {placeOf : ScopeId → Option Place}
    (same : stack.map placeOf = frames.map some) : stack.head?.bind placeOf = frames.head? := by
  cases stack with
  | nil =>
    cases frames with
    | nil => rfl
    | cons place others => cases same
  | cons id outer =>
    cases frames with
    | nil => cases same
    | cons place others => exact (List.cons.inj same).1

/-- The first of the open scopes with a property is that of the first node with it. -/
theorem find?_bind {stack : List ScopeId} {placeOf : ScopeId → Option Place}
    {has : ScopeId → Bool} {hasPlace : Place → Bool}
    (same : stack.map placeOf = frames.map some)
    (agree : ∀ id ∈ stack, ∀ place, placeOf id = some place → has id = hasPlace place) :
    (stack.find? has).bind placeOf = frames.find? hasPlace := by
  induction stack generalizing frames with
  | nil =>
    cases frames with
    | nil => rfl
    | cons place others => cases same
  | cons id outer ih =>
    cases frames with
    | nil => cases same
    | cons place others =>
      obtain ⟨isHere, isOuter⟩ := List.cons.inj same
      have isSame := agree id List.mem_cons_self place isHere
      rw [List.find?_cons, List.find?_cons, ← isSame]
      cases has id with
      | true => exact isHere
      | false =>
        exact ih isOuter fun other member =>
          agree other (List.mem_cons_of_mem _ member)

theorem exists_isAt_of_extends {older newer : ScopeTable} (extends_ : older.Extends newer)
    {id : ScopeId} (isAt : ∃ scope, older.get? id = some scope ∧ scope.IsAt root place) :
    ∃ scope, newer.get? id = some scope ∧ scope.IsAt root place := by
  obtain ⟨scope, found, parent, holds⟩ := isAt
  obtain ⟨kept, keptFound, sameParent, sameKind⟩ := extends_ id scope found
  exact ⟨kept, keptFound, sameParent ▸ parent, sameKind ▸ holds⟩

theorem Tracks.plain (tracks : survey.Tracks root frames rest) {step : Step}
    (plain : step.isPlain = true) : (survey.step step).Tracks root frames rest where
  sound := tracks.sound.step step
  stack := by
    rw [stack_step_of_plain plain]
    exact tracks.stack
  inside := by
    rw [length_step_of_plain plain]
    exact tracks.inside
  rest := by
    rw [length_step_of_plain plain]
    exact tracks.rest
  scope := by
    intro id place inside isPlace
    rw [length_step_of_plain plain] at inside
    exact exists_isAt_of_extends (grows_step survey step).scopes (tracks.scope inside isPlace)

theorem Tracks.run (tracks : survey.Tracks root frames rest) {steps : List Step}
    (plain : ∀ step ∈ steps, step.isPlain = true) :
    (steps.foldl Survey.step survey).Tracks root frames rest := by
  induction steps generalizing survey with
  | nil => exact tracks
  | cons step others ih =>
    exact ih (tracks.plain (plain step List.mem_cons_self)) fun other member =>
      plain other (List.mem_cons_of_mem _ member)

/-- The next scope to open is that of the next node. -/
theorem Tracks.getElem?_length (tracks : survey.Tracks root frames (place :: rest)) :
    root.openings[survey.table.scopes.length]? = some place := by
  have isNext := congrArg List.head? tracks.rest
  rwa [List.head?_drop] at isNext

theorem holdsVariables_of_opening? {opening : Opening} (isOpening : node.opening? = some opening) :
    (openedKind opening).holdsVariables = node.kind.holdsVariables := by
  unfold Node.opening? at isOpening
  split at isOpening
  case h_5 kind _ _ _ _ _ _ =>
    obtain ⟨_, _, rfl⟩ := Option.map_eq_some_iff.1 isOpening
    cases kind <;> first | rfl | simp_all
  all_goals
    cases isOpening
    rfl

theorem Tracks.openScope (tracks : survey.Tracks root (root.scopesAt place) (place :: rest))
    (reached : root.at? place = some node) {opening : Opening}
    (isOpening : node.opening? = some opening) :
    (survey.openScope opening).Tracks root (place :: root.scopesAt place) rest where
  sound := tracks.sound.openScope opening
  stack := by
    rw [openScope_stack, List.map_cons, List.map_cons, tracks.stack, tracks.getElem?_length]
  inside := by
    rw [openScope_table, length_push]
    exact (List.getElem?_eq_some_iff.1 tracks.getElem?_length).1
  rest := by
    rw [openScope_table, length_push, ← List.drop_drop, tracks.rest]
    rfl
  scope := by
    intro id other inside isPlace
    rw [openScope_table, length_push] at inside
    rcases Nat.lt_succ_iff_lt_or_eq.1 inside with isOld | rfl
    · exact exists_isAt_of_extends (extends_openScope opening) (tracks.scope isOld isPlace)
    · rw [tracks.getElem?_length, Option.some.injEq] at isPlace
      subst isPlace
      refine ⟨_, get?_openScope opening, ?_, ?_⟩
      · exact head?_bind tracks.stack
      · intro other isOther
        rw [reached, Option.some.injEq] at isOther
        rw [openedScope_holdsVariables, holdsVariables_of_opening? isOpening, isOther]

theorem Tracks.closeScope (tracks : survey.Tracks root (place :: frames) rest) :
    (survey.step .closeScope).Tracks root frames rest where
  sound := tracks.sound.closeScope
  stack := by
    have outer := congrArg List.tail tracks.stack
    rwa [← List.map_tail, List.map_cons, List.tail_cons] at outer
  inside := tracks.inside
  rest := tracks.rest
  scope := tracks.scope

/-! ## Where a survey stands -/

theorem Tracks.lt_length_of_mem_stack (tracks : survey.Tracks root frames rest) {id : ScopeId}
    (isOpen : id ∈ survey.stack) : id < survey.table.scopes.length := by
  cases stack : survey.stack with
  | nil =>
    rw [stack] at isOpen
    cases isOpen
  | cons first outer =>
    rw [← tracks.sound.way stack] at isOpen
    exact (tracks.sound.formed.le_of_mem_ancestors isOpen).2

theorem Tracks.holdsVariables_eq (tracks : survey.Tracks root frames rest) {id : ScopeId}
    (inside : id < survey.table.scopes.length) (isPlace : root.openings[id]? = some place)  :
    survey.table.holdsVariables id = (root.at? place).any fun node => node.kind.holdsVariables := by
  obtain ⟨scope, found, isAt⟩ := tracks.scope inside isPlace
  obtain ⟨node, reached, _⟩ := Node.mem_openings.1 (List.mem_of_getElem? isPlace)
  rw [ScopeTable.holdsVariables, found, reached]
  exact isAt.holds node reached

/-- A survey inside the scope of a whole text is ready. -/
theorem Tracks.ready (tracks : survey.Tracks root frames rest) (isText : root.kind = .program)
    (isHeld : [] ∈ frames) : survey.Ready := by
  have isFrame : some [] ∈ survey.stack.map fun id => root.openings[id]? := by
    rw [tracks.stack]
    exact List.mem_map_of_mem isHeld
  obtain ⟨id, isOpen, isPlace⟩ := List.mem_map.1 isFrame
  have holds := tracks.holdsVariables_eq (tracks.lt_length_of_mem_stack isOpen) isPlace
  rw [Node.at?_nil, Option.any_some, isText] at holds
  exact StandsIn.ready ⟨tracks.sound, isOpen, holds⟩

theorem Tracks.getElem?_current (tracks : survey.Tracks root (root.scopesAt place) rest)
    (ready : survey.Ready) : root.openings[survey.current]? = root.innermost? place := by
  obtain ⟨id, outer, stack⟩ := List.exists_cons_of_ne_nil ready.notEmpty
  have isHead := head?_bind tracks.stack
  rw [stack] at isHead
  rw [current, stack]
  exact isHead

theorem Tracks.getElem?_variableScope (tracks : survey.Tracks root (root.scopesAt place) rest)
    (ready : survey.Ready) : root.openings[survey.variableScope]? = root.holder? place := by
  have isFound := find?_bind tracks.stack fun id isOpen outer isPlace =>
    tracks.holdsVariables_eq (tracks.lt_length_of_mem_stack isOpen) isPlace
  have held := ready.holder?_eq
  rw [ScopeTable.holder?, ready.way] at held
  rw [held] at isFound
  exact isFound

end Survey

namespace Stretch

open Node

variable {root node child : Node} {place : Place} {isInside : Bool} {first count : Nat}

theorem openings_node (reached : root.at? place = some node) :
    (Stretch.node place).openings root = node.openings.map (place ++ ·) := by
  rw [openings, reached]
  rfl

theorem openings_parts (reached : root.at? place = some node) :
    (Stretch.parts place isInside first count).openings root =
      (partOpenings first ((node.children.drop first).take count)).map (place ++ ·) := by
  rw [openings, reached]
  rfl

theorem openings_nothing : (Stretch.parts place isInside first 0).openings root = [] := by
  rw [openings]
  cases root.at? place <;> rfl

theorem openings_succ (reached : root.at? place = some node)
    (isChild : node.children[first]? = some child) :
    (Stretch.parts place isInside first (count + 1)).openings root =
      (Stretch.node (place ++ [first])).openings root ++
        (Stretch.parts place isInside (first + 1) count).openings root := by
  obtain ⟨inside, rfl⟩ := List.getElem?_eq_some_iff.1 isChild
  rw [openings_parts reached, openings_parts reached, openings_node (at?_part reached isChild),
    List.drop_eq_getElem_cons inside, List.take_succ_cons, partOpenings_cons, List.map_append,
    List.map_map]
  simp [Function.comp_def]

theorem frames_part (count : Nat) (reached : root.at? place = some node)
    (isChild : node.children[first]? = some child)
    (stands : node.holdsInScope first = isInside) :
    (Stretch.node (place ++ [first])).frames root =
      (Stretch.parts place isInside first (count + 1)).frames root := by
  rw [frames, frames, scopesAt_part reached isChild, stands]

theorem openings_plain (reached : root.at? place = some node)
    (noForm : node.kind.scopeForm? = none) :
    (Stretch.node place).openings root =
      (Stretch.parts place false 0 node.children.length).openings root := by
  obtain ⟨kind, span, children⟩ := node
  rw [kind_mk] at noForm
  rw [openings_node reached, openings_parts reached, openings_of_none noForm]
  simp

theorem openings_scope {form : ScopeForm} (reached : root.at? place = some node)
    (isForm : node.kind.scopeForm? = some form) :
    (Stretch.node place).openings root =
      (Stretch.parts place false 0 (form.start node.children)).openings root ++ place ::
          ((Stretch.parts place true (form.start node.children)
              (form.stop node.children - form.start node.children)).openings root ++
            (Stretch.parts place false (form.stop node.children)
              (node.children.length - form.stop node.children)).openings root) := by
  obtain ⟨kind, span, children⟩ := node
  rw [kind_mk] at isForm
  have ordered := form.start_le_stop children
  have inside := form.stop_le_length children
  have split : partOpenings (form.start children) (children.drop (form.start children)) =
      partOpenings (form.start children) ((children.drop (form.start children)).take
            (form.stop children - form.start children)) ++
        partOpenings (form.stop children) (children.drop (form.stop children)) := by
    have fits : form.stop children - form.start children ≤
        (children.drop (form.start children)).length := by
      rw [List.length_drop]
      exact Nat.sub_le_sub_right inside _
    rw [partOpenings_split fits, Nat.add_sub_cancel' ordered, List.drop_drop,
      Nat.add_sub_cancel' ordered]
  rw [openings_node reached, openings_parts reached, openings_parts reached,
    openings_parts reached, openings_of_some isForm]
  simp only [children_mk, List.map_append, List.map_cons, List.append_nil, List.drop_zero]
  have whole : (children.drop (form.stop children)).take
      (children.length - form.stop children) = children.drop (form.stop children) := by
    rw [← List.length_drop, List.take_length]
  rw [split, List.map_append, whole]

end Stretch

/-- Along a walk the scopes of the nodes on it open, and what is open before is open after. -/
theorem Node.Walk.tracks {root : Node} {stretch : Stretch} {survey after : Survey}
    (walk : root.Walk stretch survey after) {rest : List Place}
    (tracks : survey.Tracks root (stretch.frames root) (stretch.openings root ++ rest)) :
    after.Tracks root (stretch.frames root) rest := by
  induction walk generalizing rest with
  | nothing =>
    rwa [Stretch.openings_nothing] at tracks
  | enter _ _ ih => exact ih (tracks.plain rfl)
  | @part _ _ _ count _ _ _ _ _ reached isChild stands _ _ ihHere ihRest =>
    have sameFrames := Stretch.frames_part count reached isChild stands
    rw [Stretch.openings_succ reached isChild, List.append_assoc, ← sameFrames] at tracks
    have middle := ihHere tracks
    rw [sameFrames] at middle
    exact ihRest middle
  | @plain _ node _ _ reached noForm _ ih =>
    rw [Stretch.openings_plain reached noForm] at tracks
    exact ih (tracks.run (node.isPlain_arrival _))
  | @scope _ node _ _ _ _ _ _ reached isForm isOpening _ _ _ _ ihHead
      ihWithin ihTail =>
      rw [Stretch.openings_scope reached isForm, List.append_assoc, List.cons_append,
        List.append_assoc] at tracks
      have before := ihHead (tracks.run (node.isPlain_arrival _))
      have opened := Survey.Tracks.openScope before reached isOpening
      have inside := ihWithin opened
      exact ihTail (Survey.Tracks.closeScope inside)

theorem Survey.tracks_start (root : Node) : Survey.start.Tracks root [] root.openings where
  sound := Survey.sound_start
  stack := rfl
  inside := Nat.zero_le _
  rest := rfl
  scope := nofun

namespace Survey

variable {span : Span} {children : List Node}

theorem openings_program (span : Span) (children : List Node) :
    (Node.mk .program span children).openings =
      [] :: (Stretch.parts [] true 0 children.length).openings (.mk .program span children) := by
  have isForm : Kind.program.scopeForm? = some .whole := rfl
  rw [Node.openings_of_some isForm, Stretch.openings_parts (Node.at?_nil _)]
  simp [ScopeForm.start, Node.partOpenings]

/-- A survey of a whole text is about to open the scope of the text. -/
theorem tracks_entered (span : Span) (children : List Node) :
    (start.step (.enter span)).Tracks (.mk .program span children)
      ((Node.mk .program span children).scopesAt [])
      ([] :: (Stretch.parts [] true 0 children.length).openings (.mk .program span children)) := by
  rw [← openings_program]
  exact (tracks_start _).plain rfl

/-- The walk over the parts of a whole text. -/
theorem walk_begun (shaped : (Node.mk .program span children).isWellShaped = true) :
    (Node.mk .program span children).Walk (.parts [] true 0 children.length) (begun span)
      ((readAll (Node.parts children)).foldl step (begun span)) := by
  have isForm : (Node.mk .program span children).kind.scopeForm? = some .whole := rfl
  have reached := Node.at?_nil (Node.mk .program span children)
  have strung : Strung (IsPlaceIn span (Node.parts children)) (fun _ => .read) 0
      (Node.parts ((children.take children.length).drop 0)) (readAll (Node.parts children)) := by
    rw [List.take_length]
    exact strung_readAll (fun _ => rfl) _ _
  refine Node.walk_segment true 0 children.length reached strung (Nat.le_refl _) ?_ ?_ _
  · exact fun index _ inside => (Node.holdsInScope_of_some isForm).2 ⟨Nat.zero_le _, inside⟩
  · intro index child isChild survey
    have walk := Node.walk_trace shaped (Node.at?_part reached isChild) survey
    rwa [Node.accessAt, Node.accessFrom_part _ reached isChild] at walk

end Survey

namespace ScopeTable

variable {root : Node}

/-- The survey of a whole tree ends outside all scopes, with none to come. -/
theorem tracks_trace (shaped : root.isWellShaped = true) :
    ((root.trace .read).foldl Survey.step Survey.start).Tracks root [] [] := by
  have walk : root.Walk (.node []) Survey.start _ :=
    Node.walk_trace shaped (Node.at?_nil root) Survey.start
  have noFrames : root.scopesAt [] = [] := by
    cases root
    rfl
  have begins : Survey.start.Tracks root ((Stretch.node []).frames root)
      ((Stretch.node []).openings root ++ []) := by
    rw [Stretch.frames, noFrames, Stretch.openings_node (Node.at?_nil root)]
    simpa using Survey.tracks_start root
  have tracks := walk.tracks begins
  rwa [Stretch.frames, noFrames] at tracks

/-- A table has one scope for each node that opens one. -/
theorem length_scopes_ofProgram (shaped : root.isWellShaped = true) :
    (ofProgram root).scopes.length = root.openings.length := by
  have tracks := tracks_trace shaped
  rw [ofProgram_eq]
  exact Nat.le_antisymm tracks.inside (List.drop_eq_nil_iff.1 tracks.rest)

theorem exists_isAt (shaped : root.isWellShaped = true) {id : ScopeId} {place : Place}
    (isPlace : root.openings[id]? = some place) :
    ∃ scope, (ofProgram root).get? id = some scope ∧ scope.IsAt root place := by
  have inside := (List.getElem?_eq_some_iff.1 isPlace).1
  rw [← length_scopes_ofProgram shaped] at inside
  rw [ofProgram_eq] at inside ⊢
  exact (tracks_trace shaped).scope inside isPlace

end ScopeTable

end Codemod
