import Codemod.Proofs.Enumeration
import Codemod.Proofs.Scope.Numbering

/-!
# What is noted in which scope

Each node of a tree notes some things when it is reached, and a function notes
its name when its scope opens.  `enumerates_ofProgram` says that a scope of a
table has exactly what the nodes of the tree note there: where, is said by
`Node.lands` in terms of places alone.

What is counted as noted is left open.  A `View` reads something off each scope
of a table, and says what steps add to it.
-/

namespace Codemod

open Trace ScopeTable

namespace Node

/--
Whether something that the node at a place notes is noted in the scope of another
node.  Without a reach it is noted in the scope that the node opens itself.
-/
def lands (root : Node) (place : Place) (reach : Option Reach) (scope : Place) : Bool :=
  match reach with
  | none => scope == place
  | some .innermost => root.innermost? place == some scope
  | some .hoisted => root.holder? place == some scope
  | some .both => root.innermost? place == some scope || root.holder? place == some scope

end Node

namespace Survey

/-- Whether something with a reach is noted in a scope. -/
def reaches (survey : Survey) (reach : Reach) (id : ScopeId) : Bool :=
  match reach with
  | .innermost => survey.current == id
  | .hoisted => survey.variableScope == id
  | .both => survey.current == id || survey.variableScope == id

variable {survey : Survey} {root node : Node} {place scope : Place} {rest : List Place}

theorem eq_of_getElem?_openings {id other : ScopeId} (isPlace : root.openings[id]? = some place)
    (isOther : root.openings[other]? = some place) : id = other :=
  (List.getElem?_inj (List.getElem?_eq_some_iff.1 isPlace).1 root.nodup_openings).1
    (isPlace.trans isOther.symm)

/-- A survey that stands at a place notes things where they land from that place. -/
theorem Tracks.reaches_eq (tracks : survey.Tracks root (root.scopesAt place) rest)
    (ready : survey.Ready) {id : ScopeId} (isScope : root.openings[id]? = some scope)
    (reach : Reach) : survey.reaches reach id = root.lands place (some reach) scope := by
  have same : ∀ {other : ScopeId} {found : Option Place}, root.openings[other]? = found →
      (other == id) = (found == some scope) := by
    intro other found isFound
    rw [Bool.eq_iff_iff, beq_iff_eq, beq_iff_eq]
    constructor
    · rintro rfl
      exact isFound.symm.trans isScope
    · rintro rfl
      exact eq_of_getElem?_openings isFound isScope
  have here := same (tracks.getElem?_current ready)
  have hoisted := same (tracks.getElem?_variableScope ready)
  cases reach with
  | innermost => exact here
  | hoisted => exact hoisted
  | both =>
    rw [reaches, Node.lands, here, hoisted]

end Survey

namespace ScopeTable

/-- A view of what is noted in each scope of a table, with what steps add to it. -/
structure View (α : Type) where
  read : ScopeTable → ScopeId → List α
  /-- What a step adds to the scopes that are open. -/
  gives : Step → List (Reach × α)
  /-- What is noted in a scope when it opens. -/
  born : Opening → List α
  read_empty : ∀ id, read .empty id = []
  gives_enter : ∀ span, gives (.enter span) = []
  read_step : ∀ {survey : Survey} {step : Step}, step.isPlain = true → survey.Ready → ∀ id,
    (read (survey.step step).table id).Perm
      (read survey.table id ++ (gives step).filterMap fun entry =>
        if survey.reaches entry.1 id then some entry.2 else none)
  read_openScope : ∀ (survey : Survey) (opening : Opening) (id : ScopeId),
    (read (survey.openScope opening).table id).Perm
      (read survey.table id ++ if id = survey.table.scopes.length then born opening else [])

end ScopeTable

namespace ScopeTable.View

variable {α ι : Type} (view : View α) {root node : Node} {place scope : Place}
  {survey middle after : Survey} {rest : List Place}

/-- What a node notes, with how far it reaches. -/
def ofNode (node : Node) (access : Access) : List (Option Reach × α) :=
  ((node.notes access).flatMap view.gives).map (fun entry => (some entry.1, entry.2)) ++
    (node.opening?.toList.flatMap view.born).map fun value => (none, value)

/-- What is noted is known by the place of the node that notes it and by an index there. -/
structure IsKnown (root : Node) (own : Place → ι → Option Reach → α → Prop) : Prop where
  isNode : ∀ {place index reach value}, own place index reach value →
    ∃ node, root.at? place = some node
  enumerates : ∀ {place node}, root.at? place = some node →
    Enumerates (fun index (entry : Option Reach × α) => own place index entry.1 entry.2)
      (view.ofNode node (root.accessAt place))

/-- What is noted in a scope by nodes of a part of the tree. -/
def InRegion (root : Node) (own : Place → ι → Option Reach → α → Prop)
    (region : Place → Option Reach → Prop) (scope : Place) (index : Place × ι) (value : α) : Prop :=
  ∃ reach, region index.1 reach ∧ own index.1 index.2 reach value ∧
    root.lands index.1 reach scope = true

/-- From one survey to another each scope gets what the nodes of a part of the tree note in it. -/
def Adds (root : Node) (own : Place → ι → Option Reach → α → Prop)
    (region : Place → Option Reach → Prop) (survey after : Survey) : Prop :=
  ∀ (id : ScopeId) (scope : Place), root.openings[id]? = some scope →
    ∃ new, (view.read after.table id).Perm (view.read survey.table id ++ new) ∧
      Enumerates (InRegion root own region scope) new

variable {view} {own : Place → ι → Option Reach → α → Prop}
  {region other : Place → Option Reach → Prop}

theorem Adds.nothing (same : ∀ id, (view.read after.table id).Perm (view.read survey.table id)) :
    view.Adds root own (fun _ _ => False) survey after := by
  intro id scope _
  refine ⟨[], ?_, .nil ?_⟩
  · rw [List.append_nil]
    exact same id
  · rintro index value ⟨_, isNowhere, _⟩
    exact isNowhere

theorem Adds.congr (adds : view.Adds root own region survey after)
    (same : ∀ place index reach value, own place index reach value →
      (region place reach ↔ other place reach)) :
    view.Adds root own other survey after := by
  intro id scope isScope
  obtain ⟨new, perm, enumerates⟩ := adds id scope isScope
  refine ⟨new, perm, enumerates.congr fun index value => ?_⟩
  constructor
  · rintro ⟨reach, isHere, isOwn, lands⟩
    exact ⟨reach, (same _ _ _ _ isOwn).1 isHere, isOwn, lands⟩
  · rintro ⟨reach, isHere, isOwn, lands⟩
    exact ⟨reach, (same _ _ _ _ isOwn).2 isHere, isOwn, lands⟩

theorem Adds.trans (first : view.Adds root own region survey middle)
    (second : view.Adds root own other middle after) (isKnown : view.IsKnown root own)
    (apart : ∀ place reach, region place reach → ¬ other place reach) :
    view.Adds root own (fun place reach => region place reach ∨ other place reach) survey
      after := by
  intro id scope isScope
  obtain ⟨new, perm, enumerates⟩ := first id scope isScope
  obtain ⟨more, morePerm, moreEnumerates⟩ := second id scope isScope
  refine ⟨new ++ more, ?_, ?_⟩
  · rw [← List.append_assoc]
    exact morePerm.trans (perm.append_right more)
  · refine (enumerates.append moreEnumerates ?_).congr fun index value => ?_
    · rintro index value value' ⟨reach, isHere, isOwn, _⟩ ⟨reach', isThere, isOwn', _⟩
      obtain ⟨node, reached⟩ := isKnown.isNode isOwn
      have same : (reach, value) = (reach', value') :=
        (isKnown.enumerates reached).unique isOwn isOwn'
      cases same
      exact apart _ _ isHere isThere
    · constructor
      · rintro (⟨reach, isHere, isOwn⟩ | ⟨reach, isHere, isOwn⟩)
        · exact ⟨reach, Or.inl isHere, isOwn⟩
        · exact ⟨reach, Or.inr isHere, isOwn⟩
      · rintro ⟨reach, isHere | isHere, isOwn⟩
        · exact Or.inl ⟨reach, isHere, isOwn⟩
        · exact Or.inr ⟨reach, isHere, isOwn⟩

/-- Part of what a node notes is noted. -/
theorem Adds.of_node (isKnown : view.IsKnown root own) (reached : root.at? place = some node)
    (chosen : Option Reach → Bool)
    (same : ∀ {id scope}, root.openings[id]? = some scope →
      (view.read after.table id).Perm (view.read survey.table id ++
        (view.ofNode node (root.accessAt place)).filterMap fun entry =>
          if chosen entry.1 && root.lands place entry.1 scope then some entry.2 else none)) :
    view.Adds root own (fun other reach => other = place ∧ chosen reach = true) survey after := by
  intro id scope isScope
  refine ⟨_, same isScope, ?_⟩
  have noted := (isKnown.enumerates reached).filterMap fun entry =>
    if chosen entry.1 && root.lands place entry.1 scope then some entry.2 else none
  refine (noted.embed (fun index => (place, index)) ?_).congr fun index value => ?_
  · intro first second _ _ _ _ equal
    exact congrArg Prod.snd equal
  · constructor
    · rintro ⟨index, rfl, ⟨reach, old⟩, isOwn, isChosen⟩
      simp only [Option.ite_none_right_eq_some, Bool.and_eq_true, Option.some.injEq] at isChosen
      obtain ⟨⟨isChosen, lands⟩, rfl⟩ := isChosen
      exact ⟨reach, ⟨rfl, isChosen⟩, isOwn, lands⟩
    · rintro ⟨reach, ⟨isHere, isChosen⟩, isOwn, lands⟩
      obtain ⟨other, index⟩ := index
      obtain rfl : other = place := isHere
      exact ⟨index, rfl, (reach, value), isOwn, by simp [isChosen, lands]⟩

/-- What plain steps add at a place. -/
theorem read_run (view : View α) (isText : root.kind = .program) (isHeld : [] ∈ root.scopesAt place)
    {id : ScopeId} (isScope : root.openings[id]? = some scope) {steps : List Step}
    (plain : ∀ step ∈ steps, step.isPlain = true)
    (tracks : survey.Tracks root (root.scopesAt place) rest) :
    (view.read (steps.foldl Survey.step survey).table id).Perm
      (view.read survey.table id ++ (steps.flatMap view.gives).filterMap fun entry =>
        if root.lands place (some entry.1) scope then some entry.2 else none) := by
  induction steps generalizing survey with
  | nil =>
    rw [List.flatMap_nil, List.filterMap_nil, List.append_nil]
    exact List.Perm.refl _
  | cons step others ih =>
    have isPlain := plain step List.mem_cons_self
    have ready := tracks.ready isText isHeld
    have here := view.read_step isPlain ready id
    simp only [tracks.reaches_eq ready isScope] at here
    have there := ih
      (fun other member => plain other (List.mem_cons_of_mem _ member)) (tracks.plain isPlain)
    rw [List.foldl_cons, List.flatMap_cons, List.filterMap_append, ← List.append_assoc]
    exact there.trans (here.append_right _)

theorem flatMap_gives_arrival (node : Node) (access : Access) :
    (node.arrival access).flatMap view.gives = (node.notes access).flatMap view.gives := by
  rw [Node.arrival, List.flatMap_append, enterNode]
  split
  · simp [view.gives_enter]
  · simp

theorem adds_arrival (isKnown : view.IsKnown root own) (isText : root.kind = .program)
    (isHeld : [] ∈ root.scopesAt place) (reached : root.at? place = some node)
    (tracks : survey.Tracks root (root.scopesAt place) rest) :
    view.Adds root own (fun other reach => other = place ∧ reach.isSome = true) survey
      ((node.arrival (root.accessAt place)).foldl Survey.step survey) := by
  refine Adds.of_node isKnown reached Option.isSome fun {id scope} isScope => ?_
  have noted := view.read_run isText isHeld isScope
    (node.isPlain_arrival (root.accessAt place)) tracks
  rw [flatMap_gives_arrival] at noted
  rw [ofNode, List.filterMap_append, List.filterMap_map, List.filterMap_map]
  simpa [Function.comp_def] using noted

theorem adds_openScope (isKnown : view.IsKnown root own) (reached : root.at? place = some node)
    {opening : Opening} (isOpening : node.opening? = some opening)
    (tracks : survey.Tracks root (root.scopesAt place) (place :: rest)) :
    view.Adds root own (fun other reach => other = place ∧ reach.isNone = true) survey
      (survey.openScope opening) := by
  refine Adds.of_node isKnown reached Option.isNone fun {id scope} isScope => ?_
  have noted := view.read_openScope survey opening id
  have isNew : id = survey.table.scopes.length ↔ scope = place := by
    constructor
    · rintro rfl
      exact Option.some.inj (isScope.symm.trans tracks.getElem?_length)
    · rintro rfl
      exact Survey.eq_of_getElem?_openings isScope tracks.getElem?_length
  rw [ofNode, List.filterMap_append, List.filterMap_map, List.filterMap_map, isOpening]
  by_cases isHere : scope = place
  · rw [if_pos (isNew.2 isHere)] at noted
    simpa [Function.comp_def, Node.lands, isHere] using noted
  · rw [if_neg (isHere ∘ isNew.1)] at noted
    simpa [Function.comp_def, Node.lands, isHere] using noted

/-! ## Walks -/

end ScopeTable.View

/-- The nodes that a stretch goes over. -/
def Stretch.Covers : Stretch → Place → Prop
  | node place, other => place <+: other
  | parts place _ first count, other =>
    ∃ index, first ≤ index ∧ index < first + count ∧ place ++ [index] <+: other

theorem eq_of_part_prefix {place inner : Place} {first second : Nat}
    (isFirst : place ++ [first] <+: inner) (isSecond : place ++ [second] <+: inner) :
    first = second := by
  have same := List.prefix_of_prefix_length_le isFirst isSecond (by simp)
  simpa using same.eq_of_length (by simp)

namespace Stretch

variable {place other : Place} {isInside isElsewhere : Bool} {first count start length : Nat}

/-- The parts of a node do not hold the node. -/
theorem Covers.ne (isCovered : (parts place isInside first count).Covers other) :
    other ≠ place := by
  rintro rfl
  obtain ⟨index, _, _, isPart⟩ := isCovered
  have longer := isPart.length_le
  rw [List.length_append, List.length_singleton] at longer
  exact Nat.not_succ_le_self _ longer

/-- What lies in some parts of a node does not lie in later ones. -/
theorem Covers.apart (isCovered : (parts place isInside first count).Covers other)
    (isLater : first + count ≤ start) :
    ¬ (parts place isElsewhere start length).Covers other := by
  rintro ⟨later, notBefore, _, isOther⟩
  obtain ⟨index, _, before, isPart⟩ := isCovered
  have same := eq_of_part_prefix isPart isOther
  omega

/-- To go over parts is to go over the first and over the others. -/
theorem covers_succ : (parts place isInside first (count + 1)).Covers other ↔
    (node (place ++ [first])).Covers other ∨
      (parts place isInside (first + 1) count).Covers other := by
  constructor
  · rintro ⟨index, notBefore, before, isPart⟩
    rcases Nat.eq_or_lt_of_le notBefore with rfl | isLater
    · exact Or.inl isPart
    · exact Or.inr ⟨index, isLater, by omega, isPart⟩
  · rintro (isHere | ⟨index, notBefore, before, isPart⟩)
    · exact ⟨first, Nat.le_refl _, by omega, isHere⟩
    · exact ⟨index, by omega, by omega, isPart⟩

/-- What lies in a node is the node or lies in one of its parts. -/
theorem covers_node_iff (isInside : Bool) {root owner inner : Node}
    (reached : root.at? place = some owner) (isNode : root.at? other = some inner) :
    (node place).Covers other ↔
      other = place ∨ (parts place isInside 0 owner.children.length).Covers other := by
  constructor
  · rintro ⟨path, rfl⟩
    cases path with
    | nil => exact Or.inl (List.append_nil _)
    | cons index path =>
      rw [Node.at?_append, reached, Option.bind_some] at isNode
      obtain ⟨kind, span, children⟩ := owner
      obtain ⟨child, isChild, _⟩ := Node.at?_cons_eq_some_iff.1 isNode
      have inNode := (List.getElem?_eq_some_iff.1 isChild).1
      exact Or.inr ⟨index, Nat.zero_le _, by simpa using inNode, path, by simp⟩
  · rintro (rfl | ⟨index, _, _, isPart⟩)
    · exact List.prefix_refl _
    · exact (List.prefix_append place [index]).trans isPart

/-- The parts of a node stand before its scope, in it or after it. -/
theorem covers_scope_iff (form : ScopeForm) {root owner inner : Node}
    (reached : root.at? place = some owner) (isNode : root.at? other = some inner) :
    (node place).Covers other ↔ other = place ∨
      (parts place false 0 (form.start owner.children)).Covers other ∨
      (parts place true (form.start owner.children)
        (form.stop owner.children - form.start owner.children)).Covers other ∨
      (parts place false (form.stop owner.children)
        (owner.children.length - form.stop owner.children)).Covers other := by
  have ordered := form.start_le_stop owner.children
  have fits := form.stop_le_length owner.children
  rw [covers_node_iff false reached isNode]
  refine or_congr_right ?_
  constructor
  · rintro ⟨index, _, inNode, isPart⟩
    rcases Nat.lt_or_ge index (form.start owner.children) with isHead | notHead
    · exact Or.inl ⟨index, Nat.zero_le _, by omega, isPart⟩
    · rcases Nat.lt_or_ge index (form.stop owner.children) with isWithin | isTail
      · exact Or.inr (Or.inl ⟨index, notHead, by omega, isPart⟩)
      · exact Or.inr (Or.inr ⟨index, isTail, by omega, isPart⟩)
  · rintro (⟨index, _, before, isPart⟩ | ⟨index, _, before, isPart⟩ | ⟨index, _, before, isPart⟩)
    all_goals exact ⟨index, Nat.zero_le _, by omega, isPart⟩

end Stretch

namespace ScopeTable.View

variable {α ι : Type} {view : View α} {root node : Node} {place scope : Place}
  {survey after : Survey} {rest : List Place} {own : Place → ι → Option Reach → α → Prop}

/-- What a node notes itself reaches some scope; the rest is born with the scope it opens. -/
theorem IsKnown.noted_or_born (isKnown : view.IsKnown root own)
    (reached : root.at? place = some node) {index : ι} {reach : Option Reach} {value : α}
    (isOwn : own place index reach value) :
    reach.isSome = true ∧ node.notes (root.accessAt place) ≠ [] ∨
      reach.isNone = true ∧ node.opening? ≠ none := by
  have member : (reach, value) ∈ _ := (isKnown.enumerates reached).mem_iff.2 ⟨index, isOwn⟩
  rcases List.mem_append.1 member with isNoted | isBorn
  · obtain ⟨entry, isGiven, same⟩ := List.mem_map.1 isNoted
    obtain ⟨step, isStep, _⟩ := List.mem_flatMap.1 isGiven
    cases same
    exact Or.inl ⟨rfl, List.ne_nil_of_mem isStep⟩
  · obtain ⟨entry, isGiven, same⟩ := List.mem_map.1 isBorn
    obtain ⟨opening, isOpening, _⟩ := List.mem_flatMap.1 isGiven
    cases same
    exact Or.inr ⟨rfl, Option.ne_none_iff_exists'.2 ⟨opening, Option.mem_toList.1 isOpening⟩⟩

/-- Along a walk each scope gets what the nodes note in it that the walk goes over. -/
theorem adds_walk (isKnown : view.IsKnown root own) (isText : root.kind = .program)
    {stretch : Stretch} (walk : root.Walk stretch survey after)
    (isHeld : [] ∈ stretch.frames root)
    (tracks : survey.Tracks root (stretch.frames root) (stretch.openings root ++ rest)) :
    view.Adds root own (fun place _ => stretch.Covers place) survey after := by
  induction walk generalizing rest with
  | nothing =>
    refine (Adds.nothing fun id => List.Perm.refl _).congr ?_
    rintro place index reach value _
    constructor
    · exact False.elim
    · rintro ⟨number, notBefore, before, _⟩
      exact absurd before (Nat.not_lt_of_le notBefore)
  | enter _ _ ih =>
    exact ih isHeld (tracks.plain rfl)
  | @part place isInside first count node child _ _ _ reached isChild stands here _ ihHere
      ihRest =>
      have sameFrames := Stretch.frames_part count reached isChild stands
      rw [Stretch.openings_succ reached isChild, List.append_assoc, ← sameFrames] at tracks
      have middle := here.tracks tracks
      have first := ihHere (sameFrames ▸ isHeld) tracks
      rw [sameFrames] at middle
      have second := ihRest isHeld middle
      refine (first.trans second isKnown ?_).congr fun _ _ _ _ _ => Stretch.covers_succ.symm
      rintro other reach isHere ⟨index, notBefore, _, isLater⟩
      have same := eq_of_part_prefix isHere isLater
      omega
  | @plain place node _ _ reached noForm _ ih =>
    rw [Stretch.openings_plain reached noForm] at tracks
    have arrived := tracks.run (node.isPlain_arrival (root.accessAt place))
    have own := adds_arrival isKnown isText isHeld reached tracks
    have parts := ih isHeld arrived
    refine (own.trans parts isKnown fun other reach isHere isPart => isPart.ne isHere.1).congr ?_
    intro other index reach value isOwn
    obtain ⟨inner, isNode⟩ := isKnown.isNode isOwn
    refine Iff.trans (or_congr_left ?_) (Stretch.covers_node_iff false reached isNode).symm
    refine and_iff_left_of_imp ?_
    rintro rfl
    exact (isKnown.noted_or_born reached isOwn).elim And.left
      fun isBorn => absurd (Node.opening?_eq_none noForm) isBorn.2
  | @scope place node form opening _ before inside _ reached isForm isOpening _ head within
      tail ihHead ihWithin ihTail =>
      rw [Stretch.openings_scope reached isForm, List.append_assoc, List.cons_append,
        List.append_assoc] at tracks
      have arrived := tracks.run (node.isPlain_arrival (root.accessAt place))
      have reachedScope := head.tracks arrived
      have opened := Survey.Tracks.openScope reachedScope reached isOpening
      have walked := within.tracks opened
      have first := adds_arrival isKnown isText isHeld reached tracks
      have second := ihHead isHeld arrived
      have third := adds_openScope isKnown reached isOpening reachedScope
      have fourth := ihWithin (List.mem_cons_of_mem _ isHeld) opened
      have fifth : view.Adds root own _ inside _ :=
        ihTail isHeld (Survey.Tracks.closeScope walked)
      have ordered := form.start_le_stop node.children
      -- A node notes things twice: on arrival, and in its own scope when that opens.
      refine ((((first.trans second isKnown ?_).trans third isKnown ?_).trans fourth isKnown
        ?_).trans fifth isKnown ?_).congr ?_
      · rintro other reach ⟨isHere, _⟩ isHead
        exact isHead.ne isHere
      · rintro other reach (⟨_, isSome⟩ | isHead) ⟨isHere, isNone⟩
        · cases reach with
          | none => cases isSome
          | some => cases isNone
        · exact isHead.ne isHere
      · rintro other reach ((⟨isHere, _⟩ | isHead) | ⟨isHere, _⟩) isWithin
        · exact isWithin.ne isHere
        · exact isHead.apart (by omega) isWithin
        · exact isWithin.ne isHere
      · rintro other reach (((⟨isHere, _⟩ | isHead) | ⟨isHere, _⟩) | isWithin) isTail
        · exact isTail.ne isHere
        · exact isHead.apart (by omega) isTail
        · exact isTail.ne isHere
        · exact isWithin.apart (by omega) isTail
      · intro other index reach value isOwn
        obtain ⟨inner, isNode⟩ := isKnown.isNode isOwn
        rw [Stretch.covers_scope_iff form reached isNode]
        cases reach with
        | none => simpa [or_assoc] using or_left_comm
        | some reach => simp [or_assoc]

/-! ## Whole trees -/

/-- A scope of a table has what the nodes of the tree note in it, each thing once. -/
theorem enumerates_ofProgram (isKnown : view.IsKnown root own) (isText : root.kind = .program)
    (shaped : root.isWellShaped = true) {id : ScopeId} (isScope : root.openings[id]? = some scope) :
    Enumerates (fun (index : Place × ι) value => ∃ reach, own index.1 index.2 reach value ∧
        root.lands index.1 reach scope = true)
      (view.read (ofProgram root) id) := by
  obtain ⟨kind, span, children⟩ := root
  obtain rfl : kind = .program := isText
  have reached := Node.at?_nil (Node.mk .program span children)
  have entered := Survey.tracks_entered span children
  have opened := entered.openScope reached rfl
  have begun := adds_openScope isKnown reached rfl entered
  rw [← List.append_nil (Stretch.openings _ _)] at opened
  have walked := adds_walk isKnown rfl (Survey.walk_begun shaped) List.mem_cons_self opened
  have apart : ∀ (other : Place) (reach : Option Reach), other = [] ∧ reach.isNone = true →
      ¬ (Stretch.parts [] true 0 children.length).Covers other :=
    fun _ _ isHere isPart => isPart.ne isHere.1
  obtain ⟨new, perm, enumerates⟩ := begun.trans walked isKnown apart id scope isScope
  rw [ofProgram_mk]
  refine (enumerates.perm ?_).congr fun index value => ?_
  · change (view.read _ id).Perm (view.read .empty id ++ new) at perm
    rw [view.read_empty] at perm
    exact perm.symm
  · constructor
    · rintro ⟨reach, _, isOwn⟩
      exact ⟨reach, isOwn⟩
    · rintro ⟨reach, isOwn, lands⟩
      refine ⟨reach, ?_, isOwn, lands⟩
      obtain ⟨inner, isNode⟩ := isKnown.isNode isOwn
      rcases (Stretch.covers_node_iff true reached isNode).1 List.nil_prefix with isHere | isPart
      · rw [isHere] at isOwn ⊢
        exact Or.inl ⟨rfl, (isKnown.noted_or_born reached isOwn).elim
          (fun isNoted => absurd rfl isNoted.2) And.left⟩
      · exact Or.inr isPart

end ScopeTable.View

end Codemod
